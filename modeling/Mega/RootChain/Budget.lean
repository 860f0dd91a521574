/-
# Extending the root chain in pieces

A call of `extend_root_chain` may be cut short by its budget, and the scan table
carries the work over to the next call. With main at the end of a linear history
that continues the chain, the call that answers `caughtUp` leaves the whole history
in the chain, oldest first (`walked`), whatever the calls' sizes and budgets.

What carries a call's work over is `OnTrack`: the chain is the old end of the
history, the scan is its new end, and they overlap in one commit at most. Every
iteration that is not out of budget leaves less to do (`left`): commits still to
be scanned count once, commits still to be put in the chain count twice, since a
segment gives up the scanned rows it moves.

A scan that started from an earlier main is finished first, and the call answers
`caughtUp` with the chain at the earlier main (`extendRootChain_stale`).

Key definitions: `LinearHistory`, `walked`, `OnTrack`, `left`, `Apart`.
Key theorems: `extendIteration_progress`, `call_progress`, `onTrack_of_reached`,
`extendRootChain_budgeted`.
-/
import Mega.RootChain.Integrity

namespace Mega
namespace RootChain

open List Table Lineage

variable {Oid : Type} [DecidableEq Oid]
variable {tail : Option (ChainRow Oid)} {anchor : ScanRow Oid}

/-! ### The history of main -/

/-- The commits from main down to one without parents, all of them stored, each
the only child of the next. -/
structure LinearHistory (db : Db Oid) (history : List (Oid × CommitRow Oid)) : Prop where
  main : ∃ entry ∈ history.head?, db.main = some entry.1
  stored : ∀ entry ∈ history, db.commits.lookup entry.1 = some entry.2
  line : Line (parentsOf db) (history.map (·.1))

/-- The chain that numbers a whole history: its walk from the oldest commit on. -/
def walked (history : List (Oid × CommitRow Oid)) : List (ChainRow Oid) :=
  history.reverse.mapIdx fun i entry => ⟨i + 1, entry.1, entry.2.tree⟩

omit [DecidableEq Oid] in
theorem map_commitId_walked (history : List (Oid × CommitRow Oid)) :
    (walked history).map (·.commitId) = (history.map (·.1)).reverse := by
  refine ext_getElem (by simp [walked]) fun i h₁ h₂ => ?_
  simp [walked]

/-- A chain with the commits of the history is its walk. -/
theorem rootChain_eq_walked {db : Db Oid} (h : Consistent db) {history : List (Oid × CommitRow Oid)}
    (hlinear : LinearHistory db history)
    (hids : (db.rootChain.map (·.commitId)).reverse = history.map (·.1)) : db.rootChain = walked history := by
  have hids' : db.rootChain.map (·.commitId) = history.reverse.map (·.1) := by
    rw [map_reverse, ← hids, reverse_reverse]
  have hlen : db.rootChain.length = history.reverse.length := by
    simpa using congrArg List.length hids'
  refine ext_getElem (by simpa [walked] using hlen) fun i h₁ h₂ => ?_
  have hi : i < history.reverse.length := by omega
  have hseq : db.rootChain[i].seq = 1 + i := key_getElem_of_numbered h.seqs h₁
  have hid : db.rootChain[i].commitId = history.reverse[i].1 := by
    have hget : (db.rootChain.map (·.commitId))[i]? = (history.reverse.map (·.1))[i]? := by rw [hids']
    simpa only [List.getElem?_map, List.getElem?_eq_getElem h₁, List.getElem?_eq_getElem hi, Option.map_some,
      Option.some.injEq] using hget
  have htree : history.reverse[i].2.tree = db.rootChain[i].treeId := by
    have htree := h.trees _ (getElem_mem h₁)
    rw [hid, hlinear.stored _ (mem_reverse.mp (getElem_mem hi))] at htree
    simpa using htree
  simp only [walked, getElem_mapIdx, ← hid, htree, Nat.add_comm i, ← hseq]

/-- A chain that ends at main is the walk. -/
theorem rootChain_eq_walked_of_tail {db : Db Oid} (h : Consistent db) {history : List (Oid × CommitRow Oid)}
    (hlinear : LinearHistory db history) {tail : ChainRow Oid} (htail : db.rootChain.getLast? = some tail)
    (hmain : db.main = some tail.commitId) : db.rootChain = walked history := by
  refine rootChain_eq_walked h hlinear ?_
  obtain ⟨entry, hentry, hmain'⟩ := hlinear.main
  obtain ⟨rest, rfl⟩ := List.head?_eq_some_iff.mp hentry
  obtain ⟨older, hchain⟩ := List.getLast?_eq_some_iff.mp htail
  have hsame : tail.commitId = entry.1 := Option.some.inj (hmain.symm.trans hmain')
  have hids : (db.rootChain.map (·.commitId)).reverse = entry.1 :: (older.map (·.commitId)).reverse := by
    rw [hchain, ← hsame]
    simp
  have hline := h.line
  rw [hids] at hline
  -- two lines from main are one
  rw [hids, map_cons, Line.eq_of_cons hline hlinear.line]

/-! ### Scan and chain on the history -/

/-- The scan is the new end of the history and the chain its old end, and they
have at most one commit in common. -/
structure OnTrack (history : List (Oid × CommitRow Oid)) (db : Db Oid) : Prop where
  consistent : Consistent db
  linear : LinearHistory db history
  chain : (db.rootChain.map (·.commitId)).reverse <:+ history.map (·.1)
  scan : db.scan.map (·.commitId) <+: history.map (·.1)
  apart : db.scan.length + db.rootChain.length ≤ history.length + 1

/-- What there is to do: a commit that is not scanned yet counts once, one that
is not in the chain yet counts twice. -/
def left (history : List (Oid × CommitRow Oid)) (db : Db Oid) : ℕ :=
  2 * (history.length - db.rootChain.length) + (history.length - db.scan.length)

section Track

variable {history : List (Oid × CommitRow Oid)} {db : Db Oid}

theorem OnTrack.length_chain (h : OnTrack history db) : db.rootChain.length ≤ history.length := by
  simpa using h.chain.length_le

theorem OnTrack.length_scan (h : OnTrack history db) : db.scan.length ≤ history.length := by
  simpa using h.scan.length_le

theorem inChain_iff (db : Db Oid) (commitId : Oid) :
    inChain db commitId = true ↔ commitId ∈ (db.rootChain.map (·.commitId)).reverse := by
  simp [inChain]

/-- The history below the scan: what the scan goes on with. -/
theorem OnTrack.split (h : OnTrack history db) : ∃ rest,
    history = history.take db.scan.length ++ rest ∧
      (history.take db.scan.length).map (·.1) = db.scan.map (·.commitId) ∧
      rest.length + db.scan.length = history.length := by
  refine ⟨history.drop db.scan.length, (take_append_drop _ _).symm, ?_, ?_⟩
  · have htake := prefix_iff_eq_take.mp h.scan
    rw [length_map, ← map_take] at htake
    exact htake.symm
  · rw [length_drop]
    have := h.length_scan
    omega

/-- The tables change; main and the commits do not. -/
theorem LinearHistory.congr {db' : Db Oid} (h : LinearHistory db history) (hmain : db'.main = db.main)
    (hcommits : db'.commits = db.commits) : LinearHistory db' history := by
  have hparents : parentsOf db' = parentsOf db := by
    unfold parentsOf
    rw [hcommits]
  exact ⟨hmain ▸ h.main, hcommits ▸ h.stored, hparents ▸ h.line⟩

/-- The scan's deepest row on the history. -/
theorem OnTrack.at_anchor (h : OnTrack history db) (hanchor : db.scan.getLast? = some anchor) :
    ∃ newer rest commit, history = newer ++ (anchor.commitId, commit) :: rest ∧
      newer.length + 1 = db.scan.length ∧ newer.map (·.1) = db.scan.dropLast.map (·.commitId) ∧
      anchor.parentCount = commit.parents.length ∧ anchor.firstParent = commit.parents.head? ∧
      commit.parents = (rest.head?.map (·.1)).toList := by
  obtain ⟨rest, hsplit, hids, -⟩ := h.split
  obtain ⟨init, hscan⟩ := List.getLast?_eq_some_iff.mp hanchor
  rw [hscan, map_append, map_cons, map_nil] at hids
  obtain ⟨newer, last, htake, hnewer, hlast⟩ := map_eq_append_iff.mp hids
  obtain ⟨entry, rfl, hid⟩ := map_eq_singleton_iff.mp hlast
  have hhistory : history = newer ++ entry :: rest := by
    conv_lhs => rw [hsplit]
    rw [hscan, htake]
    simp
  have hstored := h.linear.stored entry (by rw [hhistory]; simp)
  have hfaith := h.consistent.faithful anchor (mem_of_getLast? hanchor)
  have hrow : commitRow db anchor.commitId =
      some ⟨0, anchor.commitId, entry.2.tree, entry.2.parents.length, entry.2.parents.head?⟩ := by
    rw [← hid, commitRow, hstored]
    rfl
  rw [hfaith] at hrow
  have hparents : parentsOf db entry.1 = some (rest.head?.map (·.1)).toList := by
    have hline := h.linear.line
    rw [hhistory, map_append, map_cons] at hline
    rw [← List.head?_map]
    exact (Line.of_append hline).1
  rw [parentsOf, hstored] at hparents
  refine ⟨newer, rest, entry.2, ?_, ?_, ?_, congrArg ScanRow.parentCount (Option.some.inj hrow),
    congrArg ScanRow.firstParent (Option.some.inj hrow), Option.some.inj hparents⟩
  · rw [hhistory, ← hid]
  · rw [hscan]
    simpa using congrArg List.length hnewer
  · rw [hnewer, hscan, dropLast_concat]

/-- The chain begins below the scan, unless its tail is the deepest scanned
commit. -/
theorem OnTrack.chain_below (h : OnTrack history db) {newer rest : List (Oid × CommitRow Oid)}
    {entry : Oid × CommitRow Oid} (hhistory : history = newer ++ entry :: rest)
    (hlen : newer.length + 1 = db.scan.length) :
    (inChain db entry.1 = false → (db.rootChain.map (·.commitId)).reverse <:+ rest.map (·.1)) ∧
    (inChain db entry.1 = true → (db.rootChain.map (·.commitId)).reverse = entry.1 :: rest.map (·.1)) := by
  have hsuffix := h.chain
  have hapart := h.apart
  have hrest : entry.1 :: rest.map (·.1) <:+ history.map (·.1) := by
    rw [hhistory, map_append, map_cons]
    exact suffix_append _ _
  have hle : (db.rootChain.map (·.commitId)).reverse.length ≤ (entry.1 :: rest.map (·.1)).length := by
    have := congrArg List.length hhistory
    simp only [length_append, length_cons] at this
    simp only [length_reverse, length_map, length_cons]
    omega
  have hbelow : (db.rootChain.map (·.commitId)).reverse <:+ entry.1 :: rest.map (·.1) :=
    suffix_of_suffix_length_le hsuffix hrest hle
  have hnodup : (entry.1 :: rest.map (·.1)).Nodup := h.linear.line.nodup.sublist hrest.sublist
  rcases suffix_cons_iff.mp hbelow with heq | hdeep
  · have hin : inChain db entry.1 = true := by
      rw [inChain_iff, heq]
      exact mem_cons_self
    exact ⟨fun hout => by simp [hin] at hout, fun _ => heq⟩
  · refine ⟨fun _ => hdeep, fun hin => ?_⟩
    have hmem := (inChain_iff db entry.1).mp hin
    exact absurd (hdeep.subset hmem) (nodup_cons.mp hnodup).1

end Track

/-! ### One iteration -/

/-- What an iteration does to tables that are on track. -/
def Progress (history : List (Oid × CommitRow Oid)) (db : Db Oid) (remaining : Option ℕ) :
    Iteration Oid × Db Oid → Prop
  | (.finished (.ok .caughtUp), db') => OnTrack history db' ∧ db'.rootChain = walked history
  | (.finished (.ok .notCaughtUp), db') => exhausted remaining = true ∧ db' = db
  | (.again remaining', db') => exhausted remaining = false ∧ OnTrack history db' ∧
      left history db' < left history db ∧ ∃ count, remaining' = consume remaining count
  | _ => False

section Iteration

variable {history : List (Oid × CommitRow Oid)} {db : Db Oid}

/-- A finished chain is on track. -/
theorem onTrack_finished (h : Consistent db) (hlinear : LinearHistory db history) (hscan : db.scan = [])
    (hchain : db.rootChain = walked history) : OnTrack history db := by
  refine ⟨h, hlinear, ?_, by simp [hscan], ?_⟩
  · rw [hchain, map_commitId_walked, reverse_reverse]
  · rw [hscan, hchain]
    simp [walked]

/-- More scanned commits of the history, not beyond the tail of the chain. -/
theorem OnTrack.scan_append (h : OnTrack history db) {rows : List (ScanRow Oid)} (hne : rows ≠ [])
    (hcons : Consistent (insertScanRows (db.scan.length + 1) rows db))
    (hids : db.scan.map (·.commitId) ++ rows.map (·.commitId) <+: history.map (·.1))
    (hapart : db.scan.length + rows.length + db.rootChain.length ≤ history.length + 1) :
    OnTrack history (insertScanRows (db.scan.length + 1) rows db) ∧
      left history (insertScanRows (db.scan.length + 1) rows db) < left history db := by
  have hpos : 0 < rows.length := length_pos_iff.mpr hne
  have hle : db.scan.length + rows.length ≤ history.length := by simpa using hids.length_le
  have hlen : (positioned (db.scan.length + 1) rows).length = rows.length := by simp [positioned]
  rw [insertScanRows_eq h.consistent] at hcons ⊢
  refine ⟨⟨hcons, h.linear.congr rfl rfl, h.chain, ?_, ?_⟩, ?_⟩
  · rwa [map_append, map_commitId_positioned]
  · simp only [length_append, hlen]
    omega
  · simp only [left, length_append, hlen]
    omega

theorem startScan_progress (h : OnTrack history db) (remaining : Option ℕ) (hempty : db.scan = []) :
    Progress history db remaining (startScan db remaining) := by
  obtain ⟨entry, hentry, hmain⟩ := h.linear.main
  obtain ⟨rest, hhistory⟩ := List.head?_eq_some_iff.mp hentry
  have hstored := h.linear.stored entry (by rw [hhistory]; exact mem_cons_self)
  have hroot : mainRoot db = .ok ⟨1, entry.1, entry.2.tree, entry.2.parents.length, entry.2.parents.head?⟩ := by
    simp [mainRoot, hmain, commitRow, hstored]
  have hfaith := (mainRoot_ok hroot).2
  unfold startScan
  rw [hroot, chainTail_eq h.consistent]
  dsimp only
  by_cases hany : db.rootChain.getLast?.any (fun tail => tail.commitId == entry.1)
  · -- main is the tail
    rw [if_pos hany]
    obtain ⟨tail, htail, hid⟩ := (Option.any_eq_true _ _).mp hany
    have hid' : tail.commitId = entry.1 := by simpa using hid
    have hdone : db.rootChain = walked history :=
      rootChain_eq_walked_of_tail h.consistent h.linear htail (by rw [hmain, hid'])
    exact ⟨h, hdone⟩
  · rw [if_neg hany]
    cases happend : directAppend db remaining
        ⟨1, entry.1, entry.2.tree, entry.2.parents.length, entry.2.parents.head?⟩ with
    | some db' =>
      obtain ⟨hcons, rfl⟩ := directAppend_some h.consistent hfaith happend
      have hlinear : LinearHistory { db with rootChain := db.rootChain ++
          [⟨db.rootChain.length + 1, entry.1, entry.2.tree⟩] } history := h.linear.congr rfl rfl
      have hdone := rootChain_eq_walked_of_tail hcons hlinear (List.getLast?_concat) hmain
      exact ⟨onTrack_finished hcons hlinear hempty hdone, hdone⟩
    | none =>
      simp only
      cases hbudget : exhausted remaining with
      | true => exact ⟨hbudget, rfl⟩
      | false =>
        have hcons := consistent_append_scan h.consistent
          [⟨1, entry.1, entry.2.tree, entry.2.parents.length, entry.2.parents.head?⟩] (by simpa using hfaith)
          (by rw [hempty]; exact isChain_singleton _)
        have hchain := h.length_chain
        obtain ⟨htrack, hless⟩ := h.scan_append (by simp) hcons
          (by rw [hempty, hhistory]; simp) (by rw [hempty]; simp; omega)
        rw [hempty] at htrack hless
        exact ⟨hbudget, htrack, hless, 1, rfl⟩

omit [DecidableEq Oid] in
/-- What an iteration within its budget may take. -/
theorem allowance_pos {remaining : Option ℕ} (hbudget : exhausted remaining = false) {size : ℕ} (hsize : 0 < size) :
    0 < remaining.elim size fun left => min left size := by
  cases remaining with
  | none => exact hsize
  | some budget =>
    have hne : budget ≠ 0 := by simpa [exhausted] using hbudget
    simp only [Option.elim_some]
    omega

/-- The recursive query runs along the history, not beyond the tail of the
chain. -/
theorem scanFirstParents_track : ∀ (limit : ℕ) (entry : Oid × CommitRow Oid) (rest : List (Oid × CommitRow Oid)),
    (∀ e ∈ entry :: rest, db.commits.lookup e.1 = some e.2) →
    Line (parentsOf db) ((entry :: rest).map (·.1)) →
    (db.rootChain.map (·.commitId)).reverse <:+ (entry :: rest).map (·.1) →
    (scanFirstParents db (limit + 1) entry.1).map (·.commitId) <+: (entry :: rest).map (·.1) ∧
      (scanFirstParents db (limit + 1) entry.1).length + db.rootChain.length ≤ rest.length + 2
  | limit, entry, rest, hstored, hline, hchain => by
    have hlook := hstored entry mem_cons_self
    have hrow : commitRow db entry.1 =
        some ⟨0, entry.1, entry.2.tree, entry.2.parents.length, entry.2.parents.head?⟩ := by
      rw [commitRow, hlook]
      rfl
    have hle : db.rootChain.length ≤ rest.length + 1 := by simpa using hchain.length_le
    have hone : [entry.1] <+: (entry :: rest).map (·.1) ∧ 1 + db.rootChain.length ≤ rest.length + 2 :=
      ⟨prefix_append [entry.1] _, by omega⟩
    rw [scanFirstParents, hrow]
    cases hfirst : entry.2.parents.head? with
    | none => simpa using hone
    | some next =>
      simp only
      split
      · rename_i hgo
        obtain ⟨hcount, hout⟩ := hgo
        -- the only parent is the next commit of the history
        have hparents : entry.2.parents = (rest.head?.map (·.1)).toList := by
          have := hline.1
          rw [parentsOf, hlook, List.head?_map] at this
          exact Option.some.inj this
        cases rest with
        | nil => simp [hparents] at hfirst
        | cons entry' rest' =>
          obtain rfl : entry'.1 = next := by
            rw [hparents] at hfirst
            simpa using hfirst
          have hbelow : (db.rootChain.map (·.commitId)).reverse <:+ (entry' :: rest').map (·.1) := by
            refine (suffix_cons_iff.mp hchain).resolve_left fun heq => ?_
            rw [Bool.eq_false_iff, ne_eq, inChain_iff, heq] at hout
            exact hout mem_cons_self
          cases limit with
          | zero => simpa [scanFirstParents] using hone
          | succ limit =>
            obtain ⟨hids, hlen⟩ := scanFirstParents_track limit entry' rest'
              (fun e he => hstored e (mem_cons_of_mem _ he)) hline.2 hbelow
            refine ⟨?_, ?_⟩
            · rw [map_cons, map_cons]
              exact cons_prefix_cons.mpr ⟨rfl, hids⟩
            · simp only [length_cons]
              omega
      · simpa using hone

theorem scanDeeper_progress (h : OnTrack history db) (remaining : Option ℕ) {batchSize : ℕ} (hbatch : 0 < batchSize)
    (hanchor : db.scan.getLast? = some anchor) (hout : inChain db anchor.commitId = false)
    (hcount : anchor.parentCount = 1) {firstParent : Oid} (hfirst : anchor.firstParent = some firstParent) :
    Progress history db remaining (scanDeeper db remaining batchSize anchor firstParent) := by
  have hkept := scanDeeper_kept h.consistent remaining batchSize hanchor hcount hfirst
  revert hkept
  unfold scanDeeper
  cases hbudget : exhausted remaining with
  | true =>
    intro _
    exact ⟨hbudget, rfl⟩
  | false =>
    simp only [Bool.false_eq_true, if_false]
    obtain ⟨limit, hlimit⟩ := Nat.exists_eq_add_one.mpr (allowance_pos hbudget hbatch)
    rw [hlimit]
    obtain ⟨newer, rest, commit, hhistory, hlen, hnewer, hcount', hfirst', hparents⟩ := h.at_anchor hanchor
    cases rest with
    | nil => simp [hfirst', hparents] at hfirst
    | cons entry rest =>
      obtain rfl : entry.1 = firstParent := by
        rw [hfirst', hparents] at hfirst
        simpa using hfirst
      have hbelow := (h.chain_below hhistory hlen).1 hout
      have hline := h.linear.line
      rw [hhistory, map_append, map_cons] at hline
      obtain ⟨hids, hshort⟩ := scanFirstParents_track limit entry rest
        (fun e he => h.linear.stored e (by
          rw [hhistory]
          exact mem_append_right _ (mem_cons_of_mem _ he)))
        (Line.of_append hline).2 hbelow
      cases hrows : scanFirstParents db (limit + 1) entry.1 with
      | nil =>
        have hrow : commitRow db entry.1 ≠ none := by
          have := h.linear.stored entry (by rw [hhistory]; simp)
          simp [commitRow, this]
        rw [scanFirstParents] at hrows
        cases hrow' : commitRow db entry.1 with
        | none => exact absurd hrow' hrow
        | some row => simp [hrow'] at hrows
      | cons row rows =>
        intro hkept
        have hpos : anchor.pos = db.scan.length := key_getLast_of_numbered h.consistent.positions hanchor
        have hcons := hkept.consistent
        have hscan : db.scan.map (·.commitId) = newer.map (·.1) ++ [anchor.commitId] := by
          obtain ⟨init, hinit⟩ := List.getLast?_eq_some_iff.mp hanchor
          rw [hnewer, hinit]
          simp
        have htotal := congrArg List.length hhistory
        simp only [length_append, length_cons] at htotal
        rw [hrows] at hids hshort
        rw [hpos] at hcons ⊢
        obtain ⟨htrack, hless⟩ := h.scan_append (cons_ne_nil row rows) hcons
          (by
            rw [hscan, hhistory, map_append, map_cons, append_assoc, singleton_append]
            exact (prefix_append_right_inj _).mpr (cons_prefix_cons.mpr ⟨rfl, hids⟩))
          (by omega)
        exact ⟨hbudget, htrack, hless, _, rfl⟩

/-- Where scan and chain have met, the scanned commits to be moved and the chain
make the whole history. -/
theorem OnTrack.meets (h : OnTrack history db) (hanchor : db.scan.getLast? = some anchor)
    (hmeets : Meets db anchor tail) :
    history.map (·.1) = (db.scan.take (toMove db tail)).map (·.commitId) ++
      (db.rootChain.map (·.commitId)).reverse := by
  obtain ⟨newer, rest, commit, hhistory, hlen, hnewer, hcount, -, hparents⟩ := h.at_anchor hanchor
  obtain ⟨init, hscan⟩ := List.getLast?_eq_some_iff.mp hanchor
  cases tail with
  | none =>
    obtain ⟨hnone, hroot⟩ := hmeets
    rw [chainTail_eq h.consistent, List.getLast?_eq_none_iff] at hnone
    have hrest : rest = [] := by
      rw [hcount, hparents] at hroot
      cases rest with
      | nil => rfl
      | cons entry rest => simp at hroot
    rw [hhistory, hrest, hnone, map_append, hnewer]
    simp [toMove, hscan]
  | some tail =>
    obtain ⟨htail, hid⟩ := hmeets
    rw [chainTail_eq h.consistent] at htail
    have hin : inChain db anchor.commitId = true := by
      rw [inChain_iff, mem_reverse, ← hid]
      exact mem_map_of_mem (mem_of_getLast? htail)
    rw [(h.chain_below hhistory hlen).2 hin, hhistory, map_append, hnewer]
    simp [toMove, hscan]

/-- The deepest row that a segment leaves in the scan. -/
theorem lowest_moving (h : Consistent db) (hanchor : db.scan.getLast? = some anchor) (tail : Option (ChainRow Oid))
    (limit lowest : ℕ) (hmin : ((segmentRows db anchor tail limit).map (·.scanPos)).min? = some lowest) :
    lowest = toMove db tail - limit + 1 := by
  have hscan : (segmentRows db anchor tail limit).map (·.scanPos) =
      ((moving db tail limit).map (·.pos)).reverse := by
    rw [segmentRows_eq h hanchor]
    simp [map_map, Function.comp_def]
  rw [hscan, positions_moving h] at hmin
  obtain ⟨hmem, hle⟩ := List.min?_eq_some_iff.mp hmin
  rw [mem_reverse, mem_range'_1] at hmem
  have hfirst := hle (toMove db tail - limit + 1) (by
    rw [mem_reverse, mem_range'_1]
    omega)
  omega

theorem length_segmentRows (h : Consistent db) (hanchor : db.scan.getLast? = some anchor)
    (tail : Option (ChainRow Oid)) (limit : ℕ) :
    (segmentRows db anchor tail limit).length = min limit (toMove db tail) := by
  rw [segmentRows_eq h hanchor, length_map, length_reverse, length_moving]

/-- The scanned rows of a segment, moved to the chain. -/
theorem OnTrack.chain_append (h : OnTrack history db) (hanchor : db.scan.getLast? = some anchor)
    (hmeets : Meets db anchor tail) {limit : ℕ} {rows : List (ChainRow Oid)}
    (hids : (rows.map (·.commitId)).reverse = (moving db tail limit).map (·.commitId)) :
    ((db.rootChain ++ rows).map (·.commitId)).reverse = (history.map (·.1)).drop (toMove db tail - limit) ∧
      rows.length = min limit (toMove db tail) ∧ history.length = toMove db tail + db.rootChain.length := by
  have hlength : rows.length = min limit (toMove db tail) := by
    simpa [length_moving] using congrArg List.length hids
  have hle := toMove_le db tail
  have hwhole := h.meets hanchor hmeets
  refine ⟨?_, hlength, ?_⟩
  · rw [hwhole, map_append, reverse_append, hids, moving,
      drop_append_of_le_length (by rw [length_map, length_take]; omega), map_drop]
  · have htotal := congrArg List.length hwhole
    simp only [length_map, length_append, length_take, length_reverse] at htotal
    omega

theorem drainScan_progress (h : OnTrack history db) (remaining : Option ℕ) {segmentLimit : ℕ}
    (hsegment : 0 < segmentLimit) (hanchor : db.scan.getLast? = some anchor) (hmeets : Meets db anchor tail) :
    Progress history db remaining (drainScan db remaining segmentLimit anchor tail) := by
  unfold drainScan
  cases hbudget : exhausted remaining with
  | true => exact ⟨hbudget, rfl⟩
  | false =>
    simp only [Bool.false_eq_true, if_false]
    have hpos := allowance_pos hbudget hsegment
    generalize (remaining.elim segmentLimit fun left => min left segmentLimit) = take at hpos ⊢
    have hrows := length_segmentRows h.consistent hanchor tail take
    cases hmin : ((segmentRows db anchor tail take).map (·.scanPos)).min? with
    | none =>
      -- nothing to move: the chain ends at main
      have hzero : toMove db tail = 0 := by
        rw [List.min?_eq_none_iff, map_eq_nil_iff] at hmin
        rw [hmin, length_nil] at hrows
        omega
      have hwhole := h.meets hanchor hmeets
      rw [hzero, take_zero, map_nil, nil_append] at hwhole
      have hcons := consistent_clear_scan h.consistent
      have hlinear : LinearHistory { db with scan := [] } history := h.linear.congr rfl rfl
      have hdone := rootChain_eq_walked hcons hlinear hwhole.symm
      exact ⟨onTrack_finished hcons hlinear rfl hdone, hdone⟩
    | some lowest =>
      have hlowest := lowest_moving h.consistent hanchor tail take lowest hmin
      obtain ⟨rows, hinsert, hcons, hids⟩ := insertSegment_moving h.consistent hanchor hmeets take
      obtain ⟨hchain, hlength, htotal⟩ := h.chain_append hanchor hmeets hids
      simp only [hinsert]
      split
      · -- the last segment: the chain is the whole history
        rename_i hone
        have hdrop : toMove db tail - take = 0 := by omega
        rw [hdrop, drop_zero] at hchain
        have hcons' := consistent_clear_scan hcons
        have hlinear : LinearHistory { db with rootChain := db.rootChain ++ rows, scan := [] } history :=
          h.linear.congr rfl rfl
        have hdone := rootChain_eq_walked hcons' hlinear hchain
        exact ⟨onTrack_finished hcons' hlinear rfl hdone, hdone⟩
      · -- what was moved last stays as the deepest scanned row
        simp only [filter_scan_le h.consistent]
        have hle : toMove db tail ≤ db.scan.length ∧ db.scan.length ≤ toMove db tail + 1 := by
          unfold toMove
          split <;> omega
        have hlen : (db.scan.take lowest).length = lowest := by
          rw [length_take]
          omega
        refine ⟨hbudget, ⟨consistent_take_scan hcons lowest, h.linear.congr rfl rfl, ?_, ?_, ?_⟩, ?_, _, rfl⟩
        · rw [hchain]
          exact drop_suffix _ _
        · have hfront := take_prefix lowest db.scan
          exact (hfront.map _).trans h.scan
        · simp only [hlen, length_append]
          omega
        · simp only [left, hlen, length_append]
          omega

/-- **An iteration makes progress**: within its budget it answers that the chain
is the whole history, or leaves less to do. -/
theorem extendIteration_progress (h : OnTrack history db) (remaining : Option ℕ) {batchSize segmentLimit : ℕ}
    (hbatch : 0 < batchSize) (hsegment : 0 < segmentLimit) :
    Progress history db remaining (extendIteration db remaining batchSize segmentLimit) := by
  unfold extendIteration
  rw [scanAnchor_eq h.consistent]
  cases hanchor : db.scan.getLast? with
  | none => exact startScan_progress h remaining (List.getLast?_eq_none_iff.mp hanchor)
  | some anchor =>
    obtain ⟨newer, rest, commit, hhistory, hlen, -, hcount, hfirst, hparents⟩ := h.at_anchor hanchor
    have hbelow := h.chain_below hhistory hlen
    have htail := chainTail_eq h.consistent
    simp only
    by_cases hin : inChain db anchor.commitId = true
    · -- the deepest scanned commit is the tail
      have hchain := hbelow.2 hin
      cases hlast : db.rootChain.getLast? with
      | none =>
        rw [List.getLast?_eq_none_iff] at hlast
        rw [hlast] at hchain
        simp at hchain
      | some tail =>
        have hid : tail.commitId = anchor.commitId := by
          have hhead := congrArg List.head? hchain
          rw [List.head?_reverse, List.getLast?_map, hlast] at hhead
          simpa using hhead
        have hclass : classifyAnchor db anchor = .connected (some tail) := by
          simp [classifyAnchor, hin, htail, hlast, hid]
        rw [hclass]
        exact drainScan_progress h remaining hsegment hanchor ⟨by rw [htail, hlast], hid⟩
    · have hout : inChain db anchor.commitId = false := by simpa using hin
      have hchain := hbelow.1 hout
      cases rest with
      | nil =>
        -- the scan is at the root, and there is no chain
        have hnil : db.rootChain = [] := by simpa using hchain
        have hroot : anchor.parentCount = 0 := by simp [hcount, hparents]
        have hclass : classifyAnchor db anchor = .connected none := by
          simp [classifyAnchor, hout, htail, hnil, hroot]
        rw [hclass]
        exact drainScan_progress h remaining hsegment hanchor ⟨by rw [htail, hnil]; rfl, hroot⟩
      | cons next rest =>
        have hone : anchor.parentCount = 1 := by simp [hcount, hparents]
        have hparent : anchor.firstParent = some next.1 := by simp [hfirst, hparents]
        have hstored := h.linear.stored next (by rw [hhistory]; simp)
        have hclass : classifyAnchor db anchor = .scanMore next.1 := by
          simp [classifyAnchor, hout, hone, hparent, commitRow, hstored]
        rw [hclass]
        exact scanDeeper_progress h remaining hbatch hanchor hout hone hparent

end Iteration

/-! ### Calls -/

/-- What a call answers from tables on track. -/
structure Answered (history : List (Oid × CommitRow Oid)) (db : Db Oid) (locks : ℕ → Bool) (remaining : Option ℕ)
    (answer : Except (RootChainError Oid) RootChainOutcome × Db Oid) : Prop where
  track : OnTrack history answer.2
  answer : answer.1 = .ok .caughtUp ∧ answer.2.rootChain = walked history ∨
    answer.1 = .ok .notCaughtUp ∧ left history answer.2 ≤ left history db ∧
      ((∀ i, locks i = true) →
        remaining ≠ none ∧ (exhausted remaining = false → left history answer.2 < left history db))

section Calls

variable {history : List (Oid × CommitRow Oid)} {batchSize segmentLimit : ℕ}

/-- The iterations of a call, one after the other. -/
theorem extendRootChainInner_progress (hbatch : 0 < batchSize) (hsegment : 0 < segmentLimit) :
    ∀ (fuel : ℕ) {db : Db Oid} (locks : ℕ → Bool) (remaining : Option ℕ), OnTrack history db →
    (left history db < fuel →
      (extendRootChainInner batchSize segmentLimit fuel locks db remaining).isSome = true) ∧
    ∀ answer ∈ extendRootChainInner batchSize segmentLimit fuel locks db remaining,
      Answered history db locks remaining answer
  | 0, db, _, _, _ => ⟨fun hlt => absurd hlt (by omega), by simp [extendRootChainInner]⟩
  | fuel + 1, db, locks, remaining, h => by
    have hsizes : ¬(batchSize = 0 ∨ segmentLimit = 0) := by omega
    rw [extendRootChainInner, runIteration, if_neg hsizes]
    cases hlock : locks 0 with
    | false =>
      simp only [Bool.false_eq_true, if_false, Option.isSome_some, implies_true, true_and, Option.mem_def,
        Option.some.injEq]
      rintro answer rfl
      refine ⟨h, .inr ⟨rfl, le_refl _, fun hall => ?_⟩⟩
      rw [hall 0] at hlock
      cases hlock
    | true =>
      have hstep := extendIteration_progress h remaining hbatch hsegment
      simp only [if_true]
      rcases hresult : extendIteration db remaining batchSize segmentLimit with ⟨iteration, db'⟩
      rw [hresult] at hstep
      rcases iteration with (e | outcome) | remaining'
      · exact hstep.elim
      · simp only [Option.isSome_some, implies_true, true_and, Option.mem_def, Option.some.injEq]
        rintro answer rfl
        cases outcome with
        | caughtUp => exact ⟨hstep.1, .inl ⟨rfl, hstep.2⟩⟩
        | notCaughtUp =>
          obtain ⟨hbudget, rfl⟩ := hstep
          refine ⟨h, .inr ⟨rfl, le_refl _, fun _ => ⟨?_, fun hbudget' => ?_⟩⟩⟩
          · rintro rfl
            cases hbudget
          · rw [hbudget] at hbudget'
            cases hbudget'
        | discontinuous reason => exact hstep.elim
      · obtain ⟨-, htrack, hless, count, rfl⟩ := hstep
        obtain ⟨hsome, hanswer⟩ := extendRootChainInner_progress hbatch hsegment fuel
          (fun i => locks (i + 1)) (consume remaining count) htrack
        refine ⟨fun hfuel => hsome (by omega), fun answer hmem => ?_⟩
        obtain ⟨htrack', hcaught | ⟨hnot, hle, hlocks⟩⟩ := hanswer answer hmem
        · exact ⟨htrack', .inl hcaught⟩
        · refine ⟨htrack', .inr ⟨hnot, by omega, fun hall => ?_⟩⟩
          obtain ⟨hbudget, -⟩ := hlocks fun i => hall (i + 1)
          refine ⟨fun hnone => hbudget ?_, fun _ => by omega⟩
          rw [hnone]
          rfl

/-- The arguments a call needs to get anywhere. -/
structure Call.Positive (call : Call) : Prop where
  budget : call.budget ≠ some 0
  batch : 0 < call.batchSize
  segment : 0 < call.segmentLimit

/-- No one else holds the lock. -/
def Call.Uncontended (call : Call) : Prop := ∀ i, call.locks i = true

omit [DecidableEq Oid] in
theorem left_le (history : List (Oid × CommitRow Oid)) (db : Db Oid) : left history db ≤ 3 * history.length := by
  unfold left
  omega

/-- **A call makes progress.** -/
theorem call_progress {db : Db Oid} (h : OnTrack history db) {call : Call} (hcall : call.Positive) {fuel : ℕ}
    (hfuel : 3 * history.length < fuel) : ∃ answer, call.run fuel db = some answer ∧
      Answered history db call.locks call.budget answer := by
  have hleft := left_le history db
  obtain ⟨hsome, hanswer⟩ := extendRootChainInner_progress hcall.batch hcall.segment fuel
    call.locks call.budget h
  obtain ⟨answer, hrun⟩ := Option.isSome_iff_exists.mp (hsome (by omega))
  exact ⟨answer, hrun, hanswer answer hrun⟩

theorem afterCalls_track {fuel : ℕ} (hfuel : 3 * history.length < fuel) : ∀ (calls : List Call) {db : Db Oid},
    OnTrack history db → (∀ call ∈ calls, call.Positive) →
    ∃ after, afterCalls fuel db calls = some after ∧ OnTrack history after
  | [], db, h, _ => ⟨db, rfl, h⟩
  | call :: calls, db, h, hcalls => by
    obtain ⟨answer, hrun, hanswer⟩ := call_progress h (hcalls call mem_cons_self) hfuel
    obtain ⟨after, hafter, htrack⟩ := afterCalls_track hfuel calls hanswer.track
      fun c hc => hcalls c (mem_cons_of_mem _ hc)
    refine ⟨after, ?_, htrack⟩
    rwa [afterCalls, hrun]

/-- A call that does not catch up leaves less to do, so one of so many does. -/
theorem exists_caughtUp {fuel : ℕ} (hfuel : 3 * history.length < fuel) : ∀ (todo : ℕ) {db : Db Oid} (calls : ℕ → Call),
    OnTrack history db → left history db ≤ todo → (∀ n, (calls n).Positive ∧ (calls n).Uncontended) →
    ∃ n ≤ todo, ∃ before db', afterCalls fuel db ((List.range n).map calls) = some before ∧
      (calls n).run fuel before = some (.ok .caughtUp, db')
  | todo, db, calls, h, hleft, hcalls => by
    obtain ⟨⟨result, db'⟩, hrun, hanswer⟩ := call_progress h (hcalls 0).1 hfuel
    rcases hanswer.answer with ⟨rfl, -⟩ | ⟨rfl, -, hless⟩
    · exact ⟨0, Nat.zero_le _, db, db', rfl, hrun⟩
    · have hbudget : exhausted (calls 0).budget = false := by
        simpa [exhausted] using (hcalls 0).1.budget
      have hless' : left history db' < left history db := (hless (hcalls 0).2).2 hbudget
      cases todo with
      | zero => omega
      | succ todo =>
        obtain ⟨n, hn, before, final, hbefore, hfinal⟩ := exists_caughtUp hfuel todo
          (fun n => calls (n + 1)) hanswer.track (by simp only; omega) fun n => hcalls (n + 1)
        refine ⟨n + 1, by omega, before, final, ?_, hfinal⟩
        rwa [range_succ_eq_map, map_cons, map_map, afterCalls, hrun]

end Calls

/-! ### States that are reached -/

/-- Only the deepest scanned commit may be in the chain. -/
def Apart (db : Db Oid) : Prop := ∀ row ∈ db.scan.dropLast, inChain db row.commitId = false

section Apart

variable {db : Db Oid}

theorem apart_of_length (h : db.scan.length ≤ 1) : Apart db := by
  have hnil : db.scan.dropLast = [] := by
    rw [← length_eq_zero_iff, length_dropLast]
    omega
  simp [Apart, hnil]

theorem startScan_apart (hempty : db.scan = []) (h : Consistent db) (remaining : Option ℕ) :
    Apart (startScan db remaining).2 := by
  have hself : Apart db := apart_of_length (by simp [hempty])
  unfold startScan
  split
  · exact hself
  · rename_i root hmain
    split
    · exact hself
    · split
      · rename_i db' happend
        obtain ⟨-, rfl⟩ := directAppend_some h (mainRoot_ok hmain).2 happend
        exact apart_of_length (by simp [hempty])
      · split
        · exact hself
        · refine apart_of_length ?_
          have hinsert := insertScanRows_eq h [root]
          rw [hempty] at hinsert
          simp only [show insertScanRows 1 [root] db = _ from hinsert]
          simp [positioned]

/-- The recursive query stops at a commit of the chain. -/
theorem scanFirstParents_apart : ∀ (limit : ℕ) (commitId : Oid),
    ∀ row ∈ (scanFirstParents db limit commitId).dropLast, inChain db row.commitId = false
  | 0, _ => by simp [scanFirstParents]
  | limit + 1, commitId => by
    rw [scanFirstParents]
    cases hrow : commitRow db commitId with
    | none => simp
    | some row =>
      simp only
      split
      · split
        · rename_i next _ hgo
          intro r hr
          cases hrest : scanFirstParents db limit next with
          | nil => simp [hrest] at hr
          | cons first rest =>
            rw [hrest, dropLast_cons_of_ne_nil (cons_ne_nil _ _), ← hrest] at hr
            rcases mem_cons.mp hr with rfl | hr
            · exact hgo.2
            · exact scanFirstParents_apart limit next r hr
        · simp
      · simp

theorem scanDeeper_apart (h : Consistent db) (hapart : Apart db) (remaining : Option ℕ) (batchSize : ℕ)
    (hanchor : db.scan.getLast? = some anchor) (hout : inChain db anchor.commitId = false) (firstParent : Oid) :
    Apart (scanDeeper db remaining batchSize anchor firstParent).2 := by
  have hpos : anchor.pos = db.scan.length := key_getLast_of_numbered h.positions hanchor
  unfold scanDeeper
  split
  · exact hapart
  · dsimp only
    generalize (remaining.elim batchSize fun left => min left batchSize) = take
    have hrows : ∀ row ∈ (scanFirstParents db take firstParent).dropLast, inChain db row.commitId = false :=
      scanFirstParents_apart take firstParent
    split
    · exact hapart
    · rename_i hne
      obtain ⟨init, hscan⟩ := List.getLast?_eq_some_iff.mp hanchor
      have hne' : positioned (db.scan.length + 1) (scanFirstParents db take firstParent) ≠ [] := by
        simpa [positioned] using hne
      simp only
      rw [hpos, insertScanRows_eq h]
      intro row hrow
      have hsplit : row ∈ db.scan ∨
          row ∈ (positioned (db.scan.length + 1) (scanFirstParents db take firstParent)).dropLast := by
        simpa [dropLast_append_of_ne_nil hne'] using hrow
      rcases hsplit with hold | hnew
      · rw [hscan] at hold
        rcases mem_append.mp hold with hinit | hlast
        · exact hapart row (by rw [hscan, dropLast_concat]; exact hinit)
        · rwa [mem_singleton.mp hlast]
      · have hid : row.commitId ∈ (scanFirstParents db take firstParent).dropLast.map (·.commitId) := by
          rw [map_dropLast, ← map_commitId_positioned (db.scan.length + 1), ← map_dropLast]
          exact mem_map_of_mem hnew
        obtain ⟨r, hr, hrid⟩ := mem_map.mp hid
        have hfree := hrows r hr
        rw [hrid] at hfree
        exact hfree

/-- The rows that stay are above the segment on the line of the chain. -/
theorem drainScan_apart (h : Consistent db) (hapart : Apart db) (remaining : Option ℕ) (segmentLimit : ℕ)
    (hanchor : db.scan.getLast? = some anchor) (hmeets : Meets db anchor tail) :
    Apart (drainScan db remaining segmentLimit anchor tail).2 := by
  unfold drainScan
  split
  · exact hapart
  · dsimp only
    generalize (remaining.elim segmentLimit fun left => min left segmentLimit) = take
    split
    · exact apart_of_length (by simp)
    · rename_i lowest hmin
      have hlowest := lowest_moving h hanchor tail take lowest hmin
      obtain ⟨rows, hinsert, -, hids⟩ := insertSegment_moving h hanchor hmeets take
      simp only [hinsert]
      split
      · exact apart_of_length (by simp)
      · have hle := toMove_le db tail
        have hsome : 0 < min take (toMove db tail) := by
          rw [← length_segmentRows h hanchor tail take, length_pos_iff]
          intro hnil
          rw [hnil] at hmin
          cases hmin
        have hwhole := (line_moving h hanchor hmeets (toMove db tail)).nodup
        have hsplit : moving db tail (toMove db tail) =
            db.scan.take (lowest - 1) ++ moving db tail take := by
          have htake : db.scan.take (lowest - 1) = (db.scan.take (toMove db tail)).take (lowest - 1) := by
            rw [take_take, Nat.min_eq_left (by omega)]
          have hdrop : toMove db tail - take = lowest - 1 := by omega
          rw [moving, moving, hdrop, htake, take_append_drop, Nat.sub_self, drop_zero]
        rw [hsplit, map_append, append_assoc, nodup_append] at hwhole
        obtain ⟨-, -, hdisjoint⟩ := hwhole
        simp only [filter_scan_le h]
        intro row hrow
        have hmem : row ∈ db.scan.take (lowest - 1) := by
          have hdrop : (db.scan.take lowest).dropLast = db.scan.take (lowest - 1) := by
            rw [dropLast_eq_take, length_take, take_take]
            congr 1
            omega
          rwa [← hdrop]
        refine Bool.eq_false_iff.mpr fun hin => ?_
        rw [inChain_iff, map_append, reverse_append, hids] at hin
        exact hdisjoint _ (mem_map_of_mem hmem) _ hin rfl

theorem not_inChain_of_scanMore {firstParent : Oid} (h : classifyAnchor db anchor = .scanMore firstParent) :
    inChain db anchor.commitId = false := by
  refine Bool.eq_false_iff.mpr fun hin => ?_
  unfold classifyAnchor at h
  simp only [hin, if_true] at h
  split at h
  · split at h
    · cases h
    · split at h <;> cases h
  · split at h <;> cases h

theorem extendIteration_apart (h : Consistent db) (hapart : Apart db) (remaining : Option ℕ)
    (batchSize segmentLimit : ℕ) : Apart (extendIteration db remaining batchSize segmentLimit).2 := by
  unfold extendIteration
  rw [scanAnchor_eq h]
  cases hanchor : db.scan.getLast? with
  | none => exact startScan_apart (List.getLast?_eq_none_iff.mp hanchor) h remaining
  | some anchor =>
    have hspec := classifyAnchor_spec db anchor
    simp only
    cases hclass : classifyAnchor db anchor with
    | discontinuous discontinuity => exact hapart
    | scanMore firstParent =>
      exact scanDeeper_apart h hapart remaining batchSize hanchor (not_inChain_of_scanMore hclass) firstParent
    | connected tail =>
      rw [hclass] at hspec
      exact drainScan_apart h hapart remaining segmentLimit hanchor hspec

theorem apart_step (h : Consistent db) (hapart : Apart db) : ∀ event : Event Oid, Apart (step db event)
  | .moveMain _ => hapart
  | .appendCommit commitId commit => by
    rw [step]
    split
    · exact hapart
    · exact hapart
  | .iterate locked remaining batchSize segmentLimit => by
    rw [step, runIteration]
    split
    · exact hapart
    · split
      · exact extendIteration_apart h hapart remaining batchSize segmentLimit
      · exact hapart

theorem apart_run : ∀ (events : List (Event Oid)) {db : Db Oid}, Consistent db → Apart db → Apart (run db events)
  | [], _, _, hapart => hapart
  | event :: events, _, h, hapart => apart_run events (consistent_step h event).1 (apart_step h hapart event)

/-- Tables whose chain is an old part of the history, and whose scan, if there
is one, started at main, are on track. -/
theorem onTrack_of_reached (h : Consistent db) (hapart : Apart db) {history : List (Oid × CommitRow Oid)}
    (hlinear : LinearHistory db history) (hchain : db.rootChain <+: walked history)
    (hscan : ∀ row ∈ db.scan.head?, db.main = some row.commitId) : OnTrack history db := by
  have hsuffix : (db.rootChain.map (·.commitId)).reverse <:+ history.map (·.1) := by
    have := reverse_suffix.mpr (hchain.map (·.commitId))
    rwa [map_commitId_walked, reverse_reverse] at this
  have hlen : db.rootChain.length ≤ history.length := by simpa using hsuffix.length_le
  have hstart : db.scan.map (·.commitId) <+: history.map (·.1) := by
    cases hcases : db.scan with
    | nil => simp
    | cons row rows =>
      obtain ⟨entry, hentry, hmain⟩ := hlinear.main
      obtain ⟨rest, rfl⟩ := List.head?_eq_some_iff.mp hentry
      have hsame : row.commitId = entry.1 :=
        Option.some.inj ((hscan row (by simp [hcases])).symm.trans hmain)
      have hdescent := h.descent
      have hline := hlinear.line
      rw [hcases, map_cons, hsame] at hdescent
      rw [map_cons, map_cons, hsame]
      exact Descent.prefix_of_line hdescent hline
  refine ⟨h, hlinear, hsuffix, hstart, ?_⟩
  by_contra hover
  -- the last scanned commit but one would be in the chain
  obtain ⟨rest, hrest⟩ := hstart
  have htotal := congrArg List.length hrest
  simp only [length_append, length_map] at htotal
  obtain ⟨init, anchor, hinit⟩ : ∃ init anchor, db.scan = init ++ [anchor] := by
    refine db.scan.eq_nil_or_concat'.resolve_left fun hnil => ?_
    rw [hnil, length_nil] at hover
    omega
  obtain ⟨newer, row, hnewer⟩ : ∃ newer row, init = newer ++ [row] := by
    refine init.eq_nil_or_concat'.resolve_left fun hnil => ?_
    rw [hinit, hnil, nil_append, length_singleton] at hover
    omega
  have hhistory : row.commitId :: anchor.commitId :: rest <:+ history.map (·.1) := by
    rw [← hrest, hinit, hnewer]
    exact ⟨newer.map (·.commitId), by simp⟩
  have hin : inChain db row.commitId = true := by
    rw [inChain_iff]
    refine (suffix_of_suffix_length_le hhistory hsuffix ?_).subset mem_cons_self
    simp only [length_cons, length_reverse, length_map]
    omega
  have hfree := hapart row (by simp [hinit, hnewer])
  rw [hin] at hfree
  cases hfree

end Apart

/-! ### Any calls make the same chain -/

/-- **Calls with budgets extend the chain as one walk does.** Let main be fixed
at the end of a linear history that continues the chain, with no scan left over
from another main. Whatever calls are made, each answers, and one that answers
`caughtUp` leaves the walk of the history in the chain. One that does not leaves
less to do if it gets the lock, and so finitely many calls catch up. A call
without a budget does so at once, and where main can be appended directly, that
makes the same chain. -/
theorem extendRootChain_budgeted (commits : List (Oid × CommitRow Oid)) (main : Option Oid)
    (events : List (Event Oid)) (history : List (Oid × CommitRow Oid))
    (hlinear : LinearHistory (run (Db.unextended commits main) events) history)
    (hchain : (run (Db.unextended commits main) events).rootChain <+: walked history)
    (hscan : ∀ row ∈ (run (Db.unextended commits main) events).scan.head?,
      (run (Db.unextended commits main) events).main = some row.commitId) :
    ∃ enough, ∀ fuel, enough ≤ fuel →
      (∀ calls : List Call, (∀ call ∈ calls, call.Positive) →
        ∃ before, afterCalls fuel (run (Db.unextended commits main) events) calls = some before ∧
          ∀ call : Call, call.Positive → ∃ outcome after, call.run fuel before = some (.ok outcome, after) ∧
            (outcome = .caughtUp → after.rootChain = walked history) ∧
            (outcome ≠ .caughtUp → outcome = .notCaughtUp ∧
              (call.Uncontended → left history after < left history before))) ∧
      (∀ calls : ℕ → Call, (∀ n, (calls n).Positive ∧ (calls n).Uncontended) →
        ∃ n ≤ left history (run (Db.unextended commits main) events), ∃ before after,
          afterCalls fuel (run (Db.unextended commits main) events) ((List.range n).map calls) = some before ∧
          (calls n).run fuel before = some (.ok .caughtUp, after)) ∧
      (∀ call : Call, call.budget = none → call.Positive → call.Uncontended →
        ∃ after, call.run fuel (run (Db.unextended commits main) events) = some (.ok .caughtUp, after) ∧
          after.rootChain = walked history) ∧
      (∀ root after, mainRoot (run (Db.unextended commits main) events) = .ok root →
        directAppend (run (Db.unextended commits main) events) none root = some after →
        after.rootChain = walked history) := by
  have hcons := (consistent_run events (consistent_unextended commits main)).1
  have hapart := apart_run events (consistent_unextended commits main) (apart_of_length (Nat.zero_le 1))
  generalize run (Db.unextended commits main) events = db at hlinear hchain hscan hcons hapart ⊢
  have htrack := onTrack_of_reached hcons hapart hlinear hchain hscan
  refine ⟨3 * history.length + 1, fun fuel henough => ?_⟩
  have hfuel : 3 * history.length < fuel := by omega
  refine ⟨fun calls hcalls => ?_, fun calls hcalls => ?_, fun call hnone hcall hlocks => ?_,
    fun root after hroot happend => ?_⟩
  · obtain ⟨before, hbefore, htrack'⟩ := afterCalls_track hfuel calls htrack hcalls
    refine ⟨before, hbefore, fun call hcall => ?_⟩
    obtain ⟨⟨result, after⟩, hrun, hanswer⟩ := call_progress htrack' hcall hfuel
    have hbudget : exhausted call.budget = false := by simpa [exhausted] using hcall.budget
    rcases hanswer.answer with ⟨rfl, hdone⟩ | ⟨rfl, -, hless⟩
    · exact ⟨.caughtUp, after, hrun, fun _ => hdone, absurd rfl⟩
    · exact ⟨.notCaughtUp, after, hrun, by simp, fun _ => ⟨rfl, fun hlocks => (hless hlocks).2 hbudget⟩⟩
  · exact exists_caughtUp hfuel _ calls htrack (le_refl _) hcalls
  · obtain ⟨⟨result, after⟩, hrun, hanswer⟩ := call_progress htrack hcall hfuel
    rcases hanswer.answer with ⟨rfl, hdone⟩ | ⟨rfl, -, hless⟩
    · exact ⟨after, hrun, hdone⟩
    · exact absurd hnone (hless hlocks).1
  · obtain ⟨hmain, hfaith⟩ := mainRoot_ok hroot
    obtain ⟨hcons', rfl⟩ := directAppend_some hcons hfaith happend
    exact rootChain_eq_walked_of_tail hcons' (hlinear.congr rfl rfl) List.getLast?_concat hmain

/-- Three commits, each on top of the one before. -/
def threeCommits : List (ℕ × CommitRow ℕ) := [(3, ⟨30, [2]⟩), (2, ⟨20, [1]⟩), (1, ⟨10, []⟩)]

/-- Main is the third commit, and a budget of two has scanned two of them. -/
theorem extendRootChain_budgeted_threeCommits :
    ((run (Db.unextended threeCommits (some 3))
      [.iterate true (some 2) 1 1, .iterate true (some 1) 1 1]).scan.map (·.commitId)) = [3, 2] ∧
    ∃ enough, ∀ fuel, enough ≤ fuel → ∃ after,
      Call.run ⟨none, 1, 1, fun _ => true⟩ fuel (run (Db.unextended threeCommits (some 3))
        [.iterate true (some 2) 1 1, .iterate true (some 1) 1 1]) = some (.ok .caughtUp, after) ∧
      after.rootChain = [⟨1, 1, 10⟩, ⟨2, 2, 20⟩, ⟨3, 3, 30⟩] := by
  refine ⟨by decide, ?_⟩
  obtain ⟨enough, henough⟩ := extendRootChain_budgeted threeCommits (some 3)
    [.iterate true (some 2) 1 1, .iterate true (some 1) 1 1] threeCommits
    ⟨⟨(3, ⟨30, [2]⟩), rfl, rfl⟩, by decide, ⟨by decide, by decide, by decide, trivial⟩⟩ (by decide) (by decide)
  exact ⟨enough, fun fuel hfuel =>
    (henough fuel hfuel).2.2.1 ⟨none, 1, 1, fun _ => true⟩ rfl ⟨by simp, by simp, by simp⟩ fun _ => rfl⟩

/-- A scan that started when main was the second commit: now that main is the
third, a call finishes it and answers `caughtUp` with two commits in the chain.
And a call that does not get the lock leaves everything as it is. -/
theorem extendRootChain_stale :
    LinearHistory (run (Db.unextended threeCommits (some 2)) [.iterate true (some 1) 1 1, .moveMain (some 3)])
      threeCommits ∧
    (run (Db.unextended threeCommits (some 2)) [.iterate true (some 1) 1 1, .moveMain (some 3)]).rootChain = [] ∧
    (∃ after, Call.run ⟨some 5, 1, 1, fun _ => true⟩ 10
        (run (Db.unextended threeCommits (some 2)) [.iterate true (some 1) 1 1, .moveMain (some 3)]) =
          some (.ok .caughtUp, after) ∧
      after.rootChain = [⟨1, 1, 10⟩, ⟨2, 2, 20⟩] ∧ after.rootChain ≠ walked threeCommits) ∧
    Call.run ⟨some 5, 1, 1, fun _ => false⟩ 10
        (run (Db.unextended threeCommits (some 2)) [.iterate true (some 1) 1 1, .moveMain (some 3)]) =
      some (.ok .notCaughtUp,
        run (Db.unextended threeCommits (some 2)) [.iterate true (some 1) 1 1, .moveMain (some 3)]) := by
  refine ⟨⟨⟨(3, ⟨30, [2]⟩), rfl, rfl⟩, by decide, ⟨by decide, by decide, by decide, trivial⟩⟩, by decide,
    ⟨_, rfl, by decide, by decide⟩, rfl⟩

end RootChain
end Mega
