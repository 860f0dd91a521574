/-
# The root chain stays whole

In every state that the transactions of `extend_root_chain` reach, the chain
numbers a line of commits 1, 2, 3, … without gaps: the first has no parents, and
the only parent of each later one is the commit before it. Rows are only added,
and adding a segment never meets a row in its way.

The invariant (`Consistent`) ties the scan to the commits: its rows are numbered
without gaps too, and each is the only child of the next one. It says nothing
about how scan and chain lie to each other. When the scan meets the chain's
tail, its rows continue the line of the chain, and a line never repeats a commit
(`Line.nodup`), so no scanned commit can be in the chain already.

Key definitions: `Consistent`, `parentsOf`, `Kept`, `Whole`.
Key theorems: `line_moving`, `extendIteration_kept`, `consistent_run`, `rootChain_integrity`.
-/
import Mega.Lib.Lineage
import Mega.RootChain.Storage

namespace Mega
namespace RootChain

open List Table Lineage

variable {Oid : Type} [DecidableEq Oid]
variable {db : Db Oid} {anchor : ScanRow Oid}

/-! ### What the tables satisfy -/

def parentsOf (db : Db Oid) (commitId : Oid) : Option (List Oid) :=
  (db.commits.lookup commitId).map (·.parents)

structure Consistent (db : Db Oid) : Prop where
  seqs : db.rootChain.map (·.seq) = List.range' 1 db.rootChain.length
  line : Line (parentsOf db) (db.rootChain.map (·.commitId)).reverse
  trees : ∀ row ∈ db.rootChain, (db.commits.lookup row.commitId).map (·.tree) = some row.treeId
  positions : db.scan.map (·.pos) = List.range' 1 db.scan.length
  faithful : ∀ row ∈ db.scan, commitRow db row.commitId = some { row with pos := 0 }
  descent : Descent (parentsOf db) (db.scan.map (·.commitId))

/-- What a commit row tells about the commit's parents. -/
theorem parentsOf_of_commitRow {commitId : Oid} {row : ScanRow Oid} (h : commitRow db commitId = some row) :
    row.commitId = commitId ∧ row.pos = 0 ∧
      (db.commits.lookup commitId).map (·.tree) = some row.treeId ∧
      ∃ ps, parentsOf db commitId = some ps ∧ row.parentCount = ps.length ∧ row.firstParent = ps.head? := by
  obtain ⟨commit, hlook, rfl⟩ := Option.map_eq_some_iff.mp h
  refine ⟨rfl, rfl, by simp [hlook], commit.parents, by simp [parentsOf, hlook], rfl, rfl⟩

theorem parentsOf_single {row : ScanRow Oid} {p : Oid} (h : commitRow db row.commitId = some { row with pos := 0 })
    (hcount : row.parentCount = 1) (hfirst : row.firstParent = some p) : parentsOf db row.commitId = some [p] := by
  obtain ⟨-, -, -, ps, hps, hlen, hhead⟩ := parentsOf_of_commitRow h
  obtain ⟨q, rfl⟩ := length_eq_one_iff.mp (hlen.symm.trans hcount)
  rw [hps, ← Option.some.inj (hfirst.symm.trans hhead)]

/-! ### Numbered tables -/

theorem scanAnchor_eq (h : Consistent db) : scanAnchor db = db.scan.getLast? :=
  topBy_eq_getLast? (pairwise_of_numbered h.positions)

theorem chainTail_eq (h : Consistent db) : chainTail db = db.rootChain.getLast? :=
  topBy_eq_getLast? (pairwise_of_numbered h.seqs)

/-! ### Adding rows -/

theorem insertChain_eq_append {table rows : List (ChainRow Oid)}
    (hseq : ((table ++ rows).map (·.seq)).Nodup) (hid : ((table ++ rows).map (·.commitId)).Nodup) :
    insertAllIgnore chainConflict table rows = table ++ rows := by
  rw [map_append, nodup_append] at hseq hid
  obtain ⟨-, hseqRows, hseqApart⟩ := hseq
  obtain ⟨-, hidRows, hidApart⟩ := hid
  refine insertAllIgnore_eq_append (fun row hrow t ht => ?_) ?_
  · have h₁ : t.seq ≠ row.seq := hseqApart _ (mem_map_of_mem ht) _ (mem_map_of_mem hrow)
    have h₂ : t.commitId ≠ row.commitId := hidApart _ (mem_map_of_mem ht) _ (mem_map_of_mem hrow)
    simp [chainConflict, h₁.symm, h₂.symm]
  · have hpair := (pairwise_map.mp hseqRows).and (pairwise_map.mp hidRows)
    refine hpair.imp fun {a b} hab => ?_
    simp [chainConflict, hab.1.symm, hab.2.symm]

/-- Rows that go on counting and continue the line make a longer chain. -/
theorem consistent_append_chain (h : Consistent db) (rows : List (ChainRow Oid))
    (hseqs : rows.map (·.seq) = List.range' (db.rootChain.length + 1) rows.length)
    (hline : Line (parentsOf db) ((rows.map (·.commitId)).reverse ++ (db.rootChain.map (·.commitId)).reverse))
    (htrees : ∀ row ∈ rows, (db.commits.lookup row.commitId).map (·.tree) = some row.treeId) :
    Consistent { db with rootChain := db.rootChain ++ rows } ∧
      insertAllIgnore chainConflict db.rootChain rows = db.rootChain ++ rows := by
  have hseqs' : (db.rootChain ++ rows).map (·.seq) = List.range' 1 (db.rootChain ++ rows).length := by
    have hadd : 1 + db.rootChain.length = db.rootChain.length + 1 := by omega
    rw [map_append, h.seqs, hseqs, length_append, List.range'_append_1.symm, hadd]
  have hline' : Line (parentsOf db) ((db.rootChain ++ rows).map (·.commitId)).reverse := by
    rwa [map_append, reverse_append]
  refine ⟨⟨hseqs', hline', fun row hrow => ?_, h.positions, h.faithful, h.descent⟩, ?_⟩
  · rcases mem_append.mp hrow with hrow | hrow
    · exact h.trees row hrow
    · exact htrees row hrow
  · refine insertChain_eq_append ?_ ?_
    · rw [hseqs']
      exact nodup_range'
    · exact nodup_reverse.mp hline'.nodup

omit [DecidableEq Oid] in
theorem map_pos_positioned (firstPos : ℕ) (rows : List (ScanRow Oid)) :
    (positioned firstPos rows).map (·.pos) = List.range' firstPos rows.length := by
  refine ext_getElem (by simp [positioned]) fun i h₁ h₂ => ?_
  simp [positioned]

omit [DecidableEq Oid] in
theorem map_commitId_positioned (firstPos : ℕ) (rows : List (ScanRow Oid)) :
    (positioned firstPos rows).map (·.commitId) = rows.map (·.commitId) := by
  refine ext_getElem (by simp [positioned]) fun i h₁ h₂ => ?_
  simp [positioned]

omit [DecidableEq Oid] in
theorem mem_positioned {firstPos : ℕ} {rows : List (ScanRow Oid)} {row : ScanRow Oid}
    (h : row ∈ positioned firstPos rows) : ∃ r ∈ rows, { row with pos := 0 } = { r with pos := 0 } ∧
      row.commitId = r.commitId := by
  obtain ⟨i, hi, rfl⟩ := mem_mapIdx.mp h
  exact ⟨rows[i], getElem_mem hi, rfl, rfl⟩

theorem map_pos_append_positioned (h : Consistent db) (rows : List (ScanRow Oid)) :
    (db.scan ++ positioned (db.scan.length + 1) rows).map (·.pos) =
      List.range' 1 (db.scan ++ positioned (db.scan.length + 1) rows).length := by
  have hadd : 1 + db.scan.length = db.scan.length + 1 := by omega
  have hlen : (positioned (db.scan.length + 1) rows).length = rows.length := by simp [positioned]
  rw [map_append, h.positions, map_pos_positioned, length_append, hlen,
    List.range'_append_1.symm, hadd]

theorem insertScanRows_eq (h : Consistent db) (rows : List (ScanRow Oid)) :
    insertScanRows (db.scan.length + 1) rows db =
      { db with scan := db.scan ++ positioned (db.scan.length + 1) rows } := by
  have hnodup : ((db.scan ++ positioned (db.scan.length + 1) rows).map (·.pos)).Nodup := by
    rw [map_pos_append_positioned h]
    exact nodup_range'
  rw [map_append, nodup_append] at hnodup
  obtain ⟨-, hrows, hapart⟩ := hnodup
  have hinsert : insertAllIgnore scanConflict db.scan (positioned (db.scan.length + 1) rows) =
      db.scan ++ positioned (db.scan.length + 1) rows := by
    refine insertAllIgnore_eq_append (fun row hrow t ht => ?_) ?_
    · have hne : t.pos ≠ row.pos := hapart _ (mem_map_of_mem ht) _ (mem_map_of_mem hrow)
      simp [scanConflict, hne.symm]
    · refine (pairwise_map.mp hrows).imp fun {a b} hab => ?_
      simp [scanConflict, hab.symm]
  unfold insertScanRows
  rw [hinsert]

/-- Rows that continue the descent make a longer scan. -/
theorem consistent_append_scan (h : Consistent db) (rows : List (ScanRow Oid))
    (hfaith : ∀ row ∈ rows, commitRow db row.commitId = some { row with pos := 0 })
    (hdescent : Descent (parentsOf db) (db.scan.map (·.commitId) ++ rows.map (·.commitId))) :
    Consistent (insertScanRows (db.scan.length + 1) rows db) := by
  rw [insertScanRows_eq h]
  refine ⟨h.seqs, h.line, h.trees, map_pos_append_positioned h rows, fun row hrow => ?_, ?_⟩
  · rcases mem_append.mp hrow with hrow | hrow
    · exact h.faithful row hrow
    · obtain ⟨r, hr, heq, hid⟩ := mem_positioned hrow
      rw [heq, hid]
      exact hfaith r hr
  · rwa [map_append, map_commitId_positioned]

/-! ### One iteration -/

/-- The recursive query walks down a line of descent. -/
theorem scanFirstParents_spec (db : Db Oid) : ∀ (limit : ℕ) (commitId : Oid),
    (∀ row ∈ scanFirstParents db limit commitId, commitRow db row.commitId = some { row with pos := 0 }) ∧
    Descent (parentsOf db) ((scanFirstParents db limit commitId).map (·.commitId)) ∧
    ∀ first ∈ (scanFirstParents db limit commitId).head?, first.commitId = commitId
  | 0, _ => ⟨by simp [scanFirstParents], isChain_nil, by simp [scanFirstParents]⟩
  | limit + 1, commitId => by
    rw [scanFirstParents]
    cases hrow : commitRow db commitId with
    | none => exact ⟨by simp, isChain_nil, by simp⟩
    | some row =>
      obtain ⟨hid, hpos, -⟩ := parentsOf_of_commitRow hrow
      have hself : commitRow db row.commitId = some { row with pos := 0 } := by
        cases row
        simp_all
      have hone : (∀ r ∈ [row], commitRow db r.commitId = some { r with pos := 0 }) ∧
          Descent (parentsOf db) ([row].map (·.commitId)) ∧ ∀ first ∈ [row].head?, first.commitId = commitId :=
        ⟨by simpa using hself, isChain_singleton _, by simpa using hid⟩
      simp only
      split
      · rename_i next hnext
        split
        · rename_i hgo
          obtain ⟨hfaith, hdesc, hfirst⟩ := scanFirstParents_spec db limit next
          refine ⟨fun r hr => ?_, ?_, by simpa using hid⟩
          · rcases mem_cons.mp hr with rfl | hr
            · exact hself
            · exact hfaith r hr
          · rw [map_cons, ← singleton_append]
            refine Descent.append (isChain_singleton _) hdesc fun c hc p hp => ?_
            obtain rfl : row.commitId = c := by simpa using hc
            rw [List.head?_map] at hp
            obtain ⟨first, hf, rfl⟩ := Option.map_eq_some_iff.mp hp
            rw [hfirst first hf]
            exact parentsOf_single hself hgo.1 hnext
        · exact hone
      · exact hone

/-- How the scan has met the chain: at its tail, or where there is no chain. -/
def Meets (db : Db Oid) (anchor : ScanRow Oid) : Option (ChainRow Oid) → Prop
  | some tail => chainTail db = some tail ∧ tail.commitId = anchor.commitId
  | none => chainTail db = none ∧ anchor.parentCount = 0

/-- How many scanned rows are to be moved in the end. -/
def toMove (db : Db Oid) (tail : Option (ChainRow Oid)) : ℕ :=
  if tail.isNone then db.scan.length else db.scan.length - 1

/-- The scanned rows that the next segment takes: the deepest `limit` of those
to be moved. -/
def moving (db : Db Oid) (tail : Option (ChainRow Oid)) (limit : ℕ) : List (ScanRow Oid) :=
  (db.scan.take (toMove db tail)).drop (toMove db tail - limit)

omit [DecidableEq Oid] in
theorem toMove_le (db : Db Oid) (tail : Option (ChainRow Oid)) : toMove db tail ≤ db.scan.length := by
  unfold toMove
  split <;> omega

omit [DecidableEq Oid] in
theorem length_moving (db : Db Oid) (tail : Option (ChainRow Oid)) (limit : ℕ) :
    (moving db tail limit).length = min limit (toMove db tail) := by
  have hle := toMove_le db tail
  rw [moving, length_drop, length_take]
  omega

theorem positions_moving (h : Consistent db) (tail : Option (ChainRow Oid)) (limit : ℕ) :
    (moving db tail limit).map (·.pos) =
      List.range' (toMove db tail - limit + 1) (moving db tail limit).length := by
  refine ext_getElem (by simp) fun i h₁ h₂ => ?_
  have hpos : ∀ (j : ℕ) (hj : j < db.scan.length), db.scan[j].pos = 1 + j := fun j hj =>
    key_getElem_of_numbered h.positions hj
  simp only [moving, getElem_map, getElem_drop, getElem_take, getElem_range', hpos]
  omega

theorem segmentRows_eq (h : Consistent db) (hanchor : db.scan.getLast? = some anchor) (tail : Option (ChainRow Oid))
    (limit : ℕ) :
    segmentRows db anchor tail limit = (moving db tail limit).reverse.map fun row =>
      ⟨row.pos, tail.elim 0 (·.seq) + (toMove db tail + 1 - row.pos), row.commitId, row.treeId⟩ := by
  have hpos : anchor.pos = db.scan.length := key_getLast_of_numbered h.positions hanchor
  have hne : db.scan.length ≠ 0 := by
    intro h0
    rw [length_eq_zero_iff.mp h0] at hanchor
    cases hanchor
  have hfilter : (db.scan.filter fun row => if tail.isNone then row.pos ≤ anchor.pos else row.pos < anchor.pos) =
      db.scan.take (toMove db tail) := by
    rw [← filter_le_of_numbered (a := 0) (toMove db tail) h.positions]
    refine filter_congr fun row _ => ?_
    cases tail with
    | none => simp [toMove, hpos]
    | some tail =>
      simp [toMove, hpos]
      omega
  have hsorted : KeySort.sortBy (·.pos) (db.scan.take (toMove db tail)) = db.scan.take (toMove db tail) := by
    refine KeySort.sortBy_eq_self ?_
    have hlt := (pairwise_of_numbered h.positions).sublist ((take_sublist (toMove db tail) db.scan).map _)
    exact (pairwise_map.mp hlt).imp le_of_lt
  have hlen : (db.scan.take (toMove db tail)).length = toMove db tail := length_take_of_le (toMove_le db tail)
  unfold segmentRows
  simp only [hfilter, hsorted]
  rw [take_reverse, hlen, ← moving]
  refine map_congr_left fun row hrow => ?_
  have hrow' : row.pos ∈ (moving db tail limit).map (·.pos) := mem_map_of_mem (mem_reverse.mp hrow)
  rw [positions_moving h, length_moving, mem_range'_1] at hrow'
  cases tail with
  | none =>
    simp only [toMove, Option.isNone_none, if_true] at hrow' ⊢
    simp only [Option.elim_none]
    congr 2
    omega
  | some tail =>
    simp only [toMove, Option.isNone_some, Bool.false_eq_true, if_false] at hrow' ⊢
    simp only [Option.elim_some]
    congr 2
    omega

/-- The rows that move continue the line of the chain. -/
theorem line_moving (h : Consistent db) (hanchor : db.scan.getLast? = some anchor) {tail : Option (ChainRow Oid)}
    (hmeets : Meets db anchor tail) (limit : ℕ) :
    Line (parentsOf db) ((moving db tail limit).map (·.commitId) ++ (db.rootChain.map (·.commitId)).reverse) := by
  obtain ⟨init, hscan⟩ := List.getLast?_eq_some_iff.mp hanchor
  have hdescent := h.descent
  have hfaith := h.faithful anchor (by rw [hscan]; simp)
  rw [hscan, map_append] at hdescent
  cases tail with
  | none =>
    obtain ⟨hnone, hroot⟩ := hmeets
    have hnil : db.rootChain = [] := by
      rw [chainTail_eq h] at hnone
      exact List.getLast?_eq_none_iff.mp hnone
    have hparents : parentsOf db anchor.commitId = some [] := by
      obtain ⟨-, -, -, ps, hps, hlen, -⟩ := parentsOf_of_commitRow hfaith
      have hlen' : ps.length = 0 := hlen.symm.trans hroot
      rw [hps, length_eq_zero_iff.mp hlen']
    have hline : Line (parentsOf db) (db.scan.map (·.commitId)) := by
      rw [hscan, map_append]
      exact hdescent.append_line ⟨hparents, trivial⟩
    have htake : db.scan.take (toMove db none) = db.scan := by simp [toMove]
    have hsplit : db.scan = db.scan.take (toMove db none - limit) ++ moving db none limit := by
      rw [moving, htake, take_append_drop]
    rw [hsplit, map_append] at hline
    rw [hnil, map_nil, reverse_nil, append_nil]
    exact hline.of_append
  | some tail =>
    obtain ⟨htail, hid⟩ := hmeets
    rw [chainTail_eq h] at htail
    obtain ⟨older, hchain⟩ := List.getLast?_eq_some_iff.mp htail
    have htake : db.scan.take (toMove db (some tail)) = init := by simp [toMove, hscan]
    have hsplit : init = init.take (toMove db (some tail) - limit) ++ moving db (some tail) limit := by
      rw [moving, htake, take_append_drop]
    rw [hsplit, map_append, append_assoc] at hdescent
    have hmove : Descent (parentsOf db) ((moving db (some tail) limit).map (·.commitId) ++ [anchor.commitId]) :=
      (isChain_append.mp hdescent).2.1
    have hline := h.line
    rw [hchain, map_append, reverse_append] at hline ⊢
    rw [← hid] at hmove
    exact hmove.append_line hline

theorem consistent_take_scan (h : Consistent db) (n : ℕ) : Consistent { db with scan := db.scan.take n } := by
  refine ⟨h.seqs, h.line, h.trees, ?_, fun row hrow => h.faithful row (mem_of_mem_take hrow), ?_⟩
  · refine ext_getElem (by simp) fun i h₁ h₂ => ?_
    simp only [map_take, getElem_take, h.positions, getElem_range']
  · have hdescent : Descent (parentsOf db) (db.scan.map (·.commitId)) := h.descent
    rw [← take_append_drop n (db.scan.map (·.commitId))] at hdescent
    rw [map_take]
    exact (isChain_append.mp hdescent).1

theorem consistent_clear_scan (h : Consistent db) : Consistent { db with scan := [] } :=
  consistent_take_scan h 0

/-- What an iteration leaves behind. -/
structure Kept (db : Db Oid) (result : Iteration Oid × Db Oid) : Prop where
  consistent : Consistent result.2
  chain : db.rootChain <+: result.2.rootChain
  noConflict : result.1 ≠ .finished (.ok (.discontinuous .rowConflict))

theorem kept_self (h : Consistent db) {result : Iteration Oid}
    (hne : result ≠ .finished (.ok (.discontinuous .rowConflict))) : Kept db (result, db) :=
  ⟨h, prefix_rfl, hne⟩

/-- Adding a segment appends its rows to the chain. -/
theorem insertSegment_moving (h : Consistent db) (hanchor : db.scan.getLast? = some anchor)
    {tail : Option (ChainRow Oid)} (hmeets : Meets db anchor tail) (limit : ℕ) : ∃ rows,
      insertSegment db (segmentRows db anchor tail limit) =
        (.ok none, { db with rootChain := db.rootChain ++ rows }) ∧
      Consistent { db with rootChain := db.rootChain ++ rows } ∧
      (rows.map (·.commitId)).reverse = (moving db tail limit).map (·.commitId) := by
  have hrows := segmentRows_eq h hanchor tail limit
  have hbase : tail.elim 0 (·.seq) = db.rootChain.length := by
    cases tail with
    | none =>
      have hnone := hmeets.1
      rw [chainTail_eq h, List.getLast?_eq_none_iff] at hnone
      simp [hnone]
    | some tail =>
      have hsome := hmeets.1
      rw [chainTail_eq h] at hsome
      exact key_getLast_of_numbered h.seqs hsome
  have hseqs : ((segmentRows db anchor tail limit).map (·.row)).map (·.seq) =
      List.range' (db.rootChain.length + 1) ((segmentRows db anchor tail limit).map (·.row)).length := by
    have hnum := reverse_numbered (positions_moving h tail limit) db.rootChain.length
    have hsum : toMove db tail - limit + 1 + (moving db tail limit).length = toMove db tail + 1 := by
      rw [length_moving]
      omega
    rw [hsum] at hnum
    rw [hrows, hbase]
    simpa [map_map, Function.comp_def] using hnum
  have hids : (((segmentRows db anchor tail limit).map (·.row)).map (·.commitId)).reverse =
      (moving db tail limit).map (·.commitId) := by
    rw [hrows]
    simp [map_map, Function.comp_def]
  have hline : Line (parentsOf db) ((((segmentRows db anchor tail limit).map (·.row)).map (·.commitId)).reverse ++
      (db.rootChain.map (·.commitId)).reverse) := by
    rw [hids]
    exact line_moving h hanchor hmeets limit
  have htrees : ∀ row ∈ (segmentRows db anchor tail limit).map (·.row),
      (db.commits.lookup row.commitId).map (·.tree) = some row.treeId := by
    rw [hrows]
    intro row hrow
    simp only [map_map, mem_map, mem_reverse] at hrow
    obtain ⟨scanned, hscanned, rfl⟩ := hrow
    have hmem : scanned ∈ db.scan := mem_of_mem_take (mem_of_mem_drop hscanned)
    exact (parentsOf_of_commitRow (h.faithful scanned hmem)).2.2.1
  obtain ⟨hcons, hinsert⟩ := consistent_append_chain h _ hseqs hline htrees
  refine ⟨_, ?_, hcons, hids⟩
  unfold insertSegment
  simp [hinsert]

theorem filter_scan_le (h : Consistent db) (lowest : ℕ) :
    db.scan.filter (fun row => row.pos ≤ lowest) = db.scan.take lowest := by
  have hfilter := filter_le_of_numbered (a := 0) lowest h.positions
  simpa using hfilter

theorem drainScan_kept (h : Consistent db) (remaining : Option ℕ) (segmentLimit : ℕ)
    (hanchor : db.scan.getLast? = some anchor) {tail : Option (ChainRow Oid)} (hmeets : Meets db anchor tail) :
    Kept db (drainScan db remaining segmentLimit anchor tail) := by
  unfold drainScan
  split
  · exact kept_self h (by simp)
  · dsimp only
    generalize (remaining.elim segmentLimit fun left => min left segmentLimit) = take
    split
    · exact ⟨consistent_clear_scan h, prefix_rfl, by simp⟩
    · rename_i lowest hlowest
      obtain ⟨rows, hinsert, hcons, -⟩ := insertSegment_moving h hanchor hmeets take
      rw [hinsert]
      simp only
      split
      · exact ⟨consistent_clear_scan hcons, prefix_append _ _, by simp⟩
      · -- what stays is the scan down to the deepest row that was moved
        refine ⟨?_, prefix_append _ _, by simp⟩
        simp only [filter_scan_le h]
        exact consistent_take_scan hcons lowest

/-- Rows below the anchor continue the scan. -/
theorem scanDeeper_kept (h : Consistent db) (remaining : Option ℕ) (batchSize : ℕ)
    (hanchor : db.scan.getLast? = some anchor) (hcount : anchor.parentCount = 1) {firstParent : Oid}
    (hfirst : anchor.firstParent = some firstParent) :
    Kept db (scanDeeper db remaining batchSize anchor firstParent) := by
  unfold scanDeeper
  split
  · exact kept_self h (by simp)
  · dsimp only
    generalize (remaining.elim batchSize fun left => min left batchSize) = take
    obtain ⟨hfaith, hdesc, hhead⟩ := scanFirstParents_spec db take firstParent
    split
    · exact kept_self h (by simp)
    · have hpos : anchor.pos = db.scan.length := key_getLast_of_numbered h.positions hanchor
      refine ⟨?_, prefix_rfl, by simp⟩
      rw [hpos]
      refine consistent_append_scan h _ hfaith (h.descent.append hdesc fun c hc p hp => ?_)
      rw [List.getLast?_map, hanchor] at hc
      rw [List.head?_map] at hp
      obtain ⟨first, hmem, rfl⟩ := Option.map_eq_some_iff.mp hp
      obtain rfl : anchor.commitId = c := by simpa using hc
      rw [hhead first hmem]
      exact parentsOf_single (h.faithful anchor (mem_of_getLast? hanchor)) hcount hfirst

theorem mainRoot_ok {root : ScanRow Oid} (h : mainRoot db = .ok root) :
    db.main = some root.commitId ∧ commitRow db root.commitId = some { root with pos := 0 } := by
  unfold mainRoot at h
  split at h
  · cases h
  · rename_i commitId hmain
    split at h
    · cases h
    · rename_i row hrow
      obtain ⟨rfl, hpos, -⟩ := parentsOf_of_commitRow hrow
      cases h
      exact ⟨hmain, hrow.trans (by rw [← hpos])⟩

/-- A direct append makes main the row after the tail. -/
theorem directAppend_some {db' : Db Oid} (h : Consistent db) {remaining : Option ℕ} {root : ScanRow Oid}
    (hroot : commitRow db root.commitId = some { root with pos := 0 })
    (happend : directAppend db remaining root = some db') :
    Consistent db' ∧
      db' = { db with rootChain := db.rootChain ++ [⟨db.rootChain.length + 1, root.commitId, root.treeId⟩] } := by
  unfold directAppend at happend
  split at happend
  · cases happend
  · rename_i tail htail
    dsimp only at happend
    split_ifs at happend with hfast hone
    obtain ⟨-, hcount, hfirst, -⟩ := hfast
    cases happend
    rw [chainTail_eq h] at htail
    have hseq : tail.seq = db.rootChain.length := key_getLast_of_numbered h.seqs htail
    obtain ⟨older, hchain⟩ := List.getLast?_eq_some_iff.mp htail
    have hline : Line (parentsOf db) (root.commitId :: (db.rootChain.map (·.commitId)).reverse) := by
      refine ⟨?_, h.line⟩
      rw [parentsOf_single hroot hcount hfirst, hchain]
      simp
    obtain ⟨hcons, hinsert⟩ := consistent_append_chain h
      [⟨tail.seq + 1, root.commitId, root.treeId⟩] (by simp [hseq]) (by simpa using hline)
      (by simpa using (parentsOf_of_commitRow hroot).2.2.1)
    have hone : insertIgnore chainConflict db.rootChain ⟨tail.seq + 1, root.commitId, root.treeId⟩ =
        db.rootChain ++ [⟨tail.seq + 1, root.commitId, root.treeId⟩] := hinsert
    simp only [hone]
    exact ⟨hcons, by rw [hseq]⟩

theorem startScan_kept (h : Consistent db) (remaining : Option ℕ) (hempty : db.scan = []) :
    Kept db (startScan db remaining) := by
  unfold startScan
  split
  · exact kept_self h (by simp)
  · rename_i root hmain
    have hroot := (mainRoot_ok hmain).2
    split
    · exact kept_self h (by simp)
    · split
      · rename_i db' happend
        obtain ⟨hcons, rfl⟩ := directAppend_some h hroot happend
        exact ⟨hcons, prefix_append _ _, by simp⟩
      · split
        · exact kept_self h (by simp)
        · refine ⟨?_, prefix_rfl, by simp⟩
          have hcons := consistent_append_scan h [root] (by simpa using hroot)
            (by rw [hempty]; exact isChain_singleton _)
          rw [hempty] at hcons
          exact hcons

/-- What each answer of `classifyAnchor` means. -/
def Classified (db : Db Oid) (anchor : ScanRow Oid) : ScanState Oid → Prop
  | .connected tail => Meets db anchor tail
  | .scanMore firstParent => anchor.parentCount = 1 ∧ anchor.firstParent = some firstParent
  | .discontinuous discontinuity => discontinuity.reason ≠ .rowConflict

theorem classifyAnchor_spec (db : Db Oid) (anchor : ScanRow Oid) :
    Classified db anchor (classifyAnchor db anchor) := by
  unfold classifyAnchor
  by_cases hin : inChain db anchor.commitId
  · rw [if_pos hin]
    cases htail : chainTail db with
    | none =>
      simp only
      split <;> simp [Classified]
    | some tail =>
      simp only
      split
      · rename_i hid
        exact ⟨htail, hid⟩
      · split <;> simp [Classified]
  · rw [if_neg hin]
    by_cases hroot : anchor.parentCount = 0
    · rw [if_pos hroot]
      cases htail : chainTail db with
      | none => exact ⟨htail, hroot⟩
      | some tail => simp [Classified]
    · rw [if_neg hroot]
      split
      · simp [Classified]
      · split
        · simp [Classified]
        · rename_i firstParent hfirst
          split
          · simp [Classified]
          · exact ⟨by omega, hfirst⟩

/-- **An iteration keeps the tables consistent**, keeps every row of the chain
and meets no conflict. -/
theorem extendIteration_kept (h : Consistent db) (remaining : Option ℕ) (batchSize segmentLimit : ℕ) :
    Kept db (extendIteration db remaining batchSize segmentLimit) := by
  unfold extendIteration
  rw [scanAnchor_eq h]
  cases hanchor : db.scan.getLast? with
  | none => exact startScan_kept h remaining (List.getLast?_eq_none_iff.mp hanchor)
  | some anchor =>
    have hspec := classifyAnchor_spec db anchor
    simp only
    cases hclass : classifyAnchor db anchor with
    | discontinuous discontinuity =>
      rw [hclass] at hspec
      refine kept_self h fun heq => hspec ?_
      simpa using heq
    | scanMore firstParent =>
      rw [hclass] at hspec
      exact scanDeeper_kept h remaining batchSize hanchor hspec.1 hspec.2
    | connected tail =>
      rw [hclass] at hspec
      exact drainScan_kept h remaining segmentLimit hanchor hspec

theorem runIteration_kept (h : Consistent db) (locked : Bool) (remaining : Option ℕ) (batchSize segmentLimit : ℕ) :
    Kept db (runIteration db locked remaining batchSize segmentLimit) := by
  unfold runIteration
  split
  · exact kept_self h (by simp)
  · split
    · exact extendIteration_kept h remaining batchSize segmentLimit
    · exact kept_self h (by simp)

/-! ### Runs -/

/-- Commits are only added. -/
theorem consistent_mono {commits : List (Oid × CommitRow Oid)}
    (hsub : ∀ c commit, db.commits.lookup c = some commit → commits.lookup c = some commit) (h : Consistent db) :
    Consistent { db with commits } := by
  have hparents : ∀ c ps, parentsOf db c = some ps → parentsOf { db with commits } c = some ps := by
    intro c ps hc
    obtain ⟨commit, hlook, rfl⟩ := Option.map_eq_some_iff.mp hc
    exact Option.map_eq_some_iff.mpr ⟨commit, hsub c commit hlook, rfl⟩
  refine ⟨h.seqs, h.line.mono hparents, fun row hrow => ?_, h.positions, fun row hrow => ?_,
    h.descent.mono hparents⟩
  · obtain ⟨commit, hlook, htree⟩ := Option.map_eq_some_iff.mp (h.trees row hrow)
    exact Option.map_eq_some_iff.mpr ⟨commit, hsub _ commit hlook, htree⟩
  · obtain ⟨commit, hlook, hrow'⟩ := Option.map_eq_some_iff.mp (h.faithful row hrow)
    exact Option.map_eq_some_iff.mpr ⟨commit, hsub _ commit hlook, hrow'⟩

theorem consistent_step (h : Consistent db) : ∀ event : Event Oid,
    Consistent (step db event) ∧ db.rootChain <+: (step db event).rootChain
  | .moveMain _ => ⟨⟨h.seqs, h.line, h.trees, h.positions, h.faithful, h.descent⟩, prefix_rfl⟩
  | .appendCommit commitId commit => by
    rw [step]
    split
    · exact ⟨h, prefix_rfl⟩
    · rename_i hnew
      refine ⟨consistent_mono (fun c row hrow => ?_) h, prefix_rfl⟩
      have hne : (c == commitId) = false := by
        refine beq_false_of_ne fun heq => hnew ?_
        rw [← heq, hrow]
        rfl
      rwa [lookup_cons, hne]
  | .iterate locked remaining batchSize segmentLimit =>
    have hkept := runIteration_kept h locked remaining batchSize segmentLimit
    ⟨hkept.consistent, hkept.chain⟩

theorem consistent_run : ∀ (events : List (Event Oid)) {db : Db Oid}, Consistent db →
    Consistent (run db events) ∧ db.rootChain <+: (run db events).rootChain
  | [], _, h => ⟨h, prefix_rfl⟩
  | event :: events, db, h => by
    obtain ⟨hstep, hchain⟩ := consistent_step h event
    obtain ⟨hrun, hrest⟩ := consistent_run events hstep
    exact ⟨hrun, hchain.trans hrest⟩

theorem run_append (db : Db Oid) (events more : List (Event Oid)) :
    run db (events ++ more) = run (run db events) more := foldl_append

/-- The tables before any extension. -/
def Db.unextended (commits : List (Oid × CommitRow Oid)) (main : Option Oid) : Db Oid := ⟨commits, main, [], []⟩

theorem consistent_unextended (commits : List (Oid × CommitRow Oid)) (main : Option Oid) :
    Consistent (Db.unextended commits main) :=
  ⟨rfl, trivial, by simp [Db.unextended], rfl, by simp [Db.unextended], isChain_nil⟩

/-- A row's number is how many rows stand before it, and its commit's parents
are the last commit before it. -/
theorem row_of_split (h : Consistent db) {before after : List (ChainRow Oid)} {row : ChainRow Oid}
    (hsplit : db.rootChain = before ++ row :: after) :
    row.seq = before.length + 1 ∧
      parentsOf db row.commitId = some (before.getLast?.map (·.commitId)).toList := by
  have hseqs := h.seqs
  have hline := h.line
  rw [hsplit] at hseqs hline
  constructor
  · have hseq := key_getElem_of_numbered hseqs (show before.length < (before ++ row :: after).length by simp)
    simpa [Nat.add_comm] using hseq
  · rw [map_append, map_cons, reverse_append, reverse_cons, append_assoc,
      singleton_append] at hline
    have hrow := hline.of_append.1
    rw [hrow, List.head?_reverse, List.getLast?_map]

/-- The number determines the row. -/
theorem row_unique (h : Consistent db) {row row' : ChainRow Oid} (hrow : row ∈ db.rootChain)
    (hrow' : row' ∈ db.rootChain) (hseq : row.seq = row'.seq) : row = row' := by
  have hnodup : (db.rootChain.map (·.seq)).Nodup := by
    rw [h.seqs]
    exact nodup_range'
  exact inj_on_of_nodup_map hnodup hrow hrow' hseq

/-- The chain numbers a line of commits from its first one on. -/
structure Whole (db : Db Oid) : Prop where
  seqs : db.rootChain.map (·.seq) = List.range' 1 db.rootChain.length
  first : ∀ row ∈ db.rootChain, row.seq = 1 → parentsOf db row.commitId = some []
  next : ∀ row ∈ db.rootChain, ∀ next ∈ db.rootChain, next.seq = row.seq + 1 →
    parentsOf db next.commitId = some [row.commitId]

theorem whole_of_consistent (h : Consistent db) : Whole db := by
  refine ⟨h.seqs, fun row hrow hone => ?_, fun row hrow next hnext hseq => ?_⟩
  · obtain ⟨before, after, hsplit⟩ := append_of_mem hrow
    obtain ⟨hnumber, hparents⟩ := row_of_split h hsplit
    obtain rfl : before = [] := length_eq_zero_iff.mp (by omega)
    exact hparents
  · obtain ⟨before, after, hsplit⟩ := append_of_mem hnext
    obtain ⟨hnumber, hparents⟩ := row_of_split h hsplit
    obtain ⟨older, newer, hold⟩ := append_of_mem hrow
    have hpos := (row_of_split h hold).1
    cases hlast : before.getLast? with
    | none =>
      have hzero : before.length = 0 := by rw [List.getLast?_eq_none_iff.mp hlast]; rfl
      omega
    | some last =>
      -- the last row before `next` has the number of `row`
      obtain ⟨earlier, rfl⟩ := List.getLast?_eq_some_iff.mp hlast
      have hsplit' : db.rootChain = earlier ++ last :: (next :: after) := by simpa using hsplit
      have hlastSeq := (row_of_split h hsplit').1
      have hmem : last ∈ db.rootChain := by rw [hsplit']; simp
      have hrowLast : row = last := by
        refine row_unique h hrow hmem ?_
        rw [length_append, length_singleton] at hnumber
        omega
      rw [hparents, hlast, hrowLast]
      rfl

/-- **The root chain stays whole.** In every state reached from empty tables its
rows are numbered from 1 without gaps; the first is a commit without parents,
and every later one's only parent is the commit before it. Whatever happens
next, the rows stay as they are, and no extension answers that it met a
conflicting row. -/
theorem rootChain_integrity (commits : List (Oid × CommitRow Oid)) (main : Option Oid)
    (events : List (Event Oid)) :
    Whole (run (Db.unextended commits main) events) ∧
    (∀ more, (run (Db.unextended commits main) events).rootChain <+:
      (run (Db.unextended commits main) (events ++ more)).rootChain) ∧
    ∀ locked remaining batchSize segmentLimit,
      (runIteration (run (Db.unextended commits main) events) locked remaining batchSize segmentLimit).1 ≠
        .finished (.ok (.discontinuous .rowConflict)) := by
  have h : Consistent (run (Db.unextended commits main) events) :=
    (consistent_run events (consistent_unextended commits main)).1
  refine ⟨whole_of_consistent h, fun more => ?_, fun locked remaining batchSize segmentLimit => ?_⟩
  · have hmore := (consistent_run more h).2
    rwa [run_append]
  · exact (runIteration_kept h locked remaining batchSize segmentLimit).noConflict

end RootChain
end Mega
