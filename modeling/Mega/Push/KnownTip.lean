/-
# Accepted chains are first-parent paths

Both resolvers of `ceres/pack/push_chain.rs` walk first parents. `resolve` stops
at the first parent that the pack does not carry and is bounded by the pack;
`from_known_tip` stops at the ref's old commit and is bounded by the limit only.
What `validate` accepts of either is the path of first parents from the new tip
down to the base, without the base.

If the pack carries just the known commits between the old and the new commit,
the two walks are over the same commits (`Down`), so that both accept or both
reject. The size of the pack never ends a walk over an acyclic storage.

Key definitions: `FirstParentPath`, `ExactChain`, `Down`.
Key theorems: `exactChain_of_receive`, `walkKnown_ok_iff`, `receive_iff_knownTip`,
`resolve_ne_cycleBelow`, `push_chains_exact`.
-/
import Mega.Lib.Fallible
import Mega.Push.Sticky

namespace Mega
namespace Push

open List Fallible

variable {Oid : Type} [DecidableEq Oid]

/-! ### First-parent paths -/

/-- The ids from `newId` down to just above `base`, along first parents. -/
structure FirstParentPath (storage : List (CommitModel Oid)) (newId base : Oid) (ids : List Oid) : Prop where
  head : ids.head? = some newId
  above : base ∉ ids
  steps : (ids ++ [base]).IsChain fun child parent => firstParent storage child = some parent

/-- The commits of the chain are the stored first-parent path from the new tip to
the base, each with one parent, and within the limit. -/
structure ExactChain (storage : List (CommitModel Oid)) (newId : Oid) (maxCommits : ℕ) (chain : PushChain Oid) :
    Prop where
  tip : stored storage newId = some chain.tip
  path : FirstParentPath storage newId chain.base (chain.orderedCommits.map (·.id))
  stored : ∀ commit ∈ chain.orderedCommits, stored storage commit.id = some commit
  single : ∀ commit ∈ chain.orderedCommits, commit.parentCommitIds.length = 1
  nonempty : 1 ≤ chain.orderedCommits.length
  bounded : chain.orderedCommits.length ≤ maxCommits

section Paths

variable {storage : List (CommitModel Oid)} {base : Oid}

/-- A path of first parents is determined by its ends. -/
theorem firstParents_unique : ∀ {ids ids' : List Oid}, ids.head? = ids'.head? → base ∉ ids → base ∉ ids' →
    (ids ++ [base]).IsChain (fun child parent => firstParent storage child = some parent) →
    (ids' ++ [base]).IsChain (fun child parent => firstParent storage child = some parent) → ids = ids'
  | [], [], _, _, _, _, _ => rfl
  | [], _ :: _, hhead, _, _, _, _ => by simp at hhead
  | _ :: _, [], hhead, _, _, _, _ => by simp at hhead
  | id :: ids, id' :: ids', hhead, hbase, hbase', hsteps, hsteps' => by
    obtain rfl : id = id' := by simpa using hhead
    obtain ⟨hfirst, hrest⟩ := isChain_cons.mp hsteps
    obtain ⟨hfirst', hrest'⟩ := isChain_cons.mp hsteps'
    rw [mem_cons, not_or] at hbase hbase'
    refine congrArg (id :: ·) (firstParents_unique ?_ hbase.2 hbase'.2 hrest hrest')
    -- the next commit is the first parent, unless that is the base
    cases ids with
    | nil =>
      cases ids' with
      | nil => rfl
      | cons next ids' =>
        have hnext : next = base := Option.some.inj ((hfirst' next rfl).symm.trans (hfirst base rfl))
        exact absurd (hnext ▸ mem_cons_self) hbase'.2
    | cons next ids =>
      cases ids' with
      | nil =>
        have hnext : next = base := Option.some.inj ((hfirst next rfl).symm.trans (hfirst' base rfl))
        exact absurd (hnext ▸ mem_cons_self) hbase.2
      | cons next' ids' => exact (hfirst next rfl).symm.trans (hfirst' next' rfl)

theorem base_notMem_of_linked (hacyclic : Acyclic storage) {commits : List (Commit Oid)}
    (hlinked : Linked base commits) (hall : ∀ commit ∈ commits, stored storage commit.id = some commit) :
    base ∉ commits.map (·.id) := by
  have hnodup := nodup_of_acyclic hacyclic (isChain_of_linked hlinked hall)
  obtain ⟨-, -, hbase⟩ := nodup_append.mp hnodup
  exact fun hmem => hbase base hmem base (by simp) rfl

omit [DecidableEq Oid] in
theorem isChain_snoc {ids : List Oid} {current parent : Oid} (h : (ids ++ [current]).IsChain (HasParent storage))
    (hstep : HasParent storage current parent) :
    (ids ++ [current] ++ [parent]).IsChain (HasParent storage) := by
  refine isChain_append.mpr ⟨h, isChain_singleton parent, ?_⟩
  intro last hlast first hfirst
  obtain rfl : current = last := by simpa using hlast
  obtain rfl : parent = first := by simpa using hfirst
  exact hstep

end Paths

section Push

variable {isProtocolZeroId : Oid → Bool} {cmd : RefCommand Oid} {packCommitIds newCommitIds : List Oid}
  {storage : List (CommitModel Oid)} {openCl : Option (Cl Oid)} {maxCommits : ℕ}

/-! ### What is accepted -/

/-- The increment starts at the tip and is a part of the path. -/
theorem increment_cons (newCommitIds : List Oid) (tip : Commit Oid) (path : List (Commit Oid)) (stop : Option Oid) :
    ∃ rest ⊆ path, (increment newCommitIds tip.id (tip :: path) stop).1 = tip :: rest := by
  by_cases htip : tip.id ∈ newCommitIds
  · rcases increment_of_new_tip htip (tip :: path) stop with ⟨-, hinc⟩ | ⟨above, known, below, hsplit, -, hknown, hinc⟩
    · exact ⟨path, List.Subset.refl path, by rw [hinc]⟩
    · cases above with
      | nil =>
        obtain ⟨rfl, -⟩ := List.cons.inj hsplit
        exact absurd htip hknown
      | cons first above =>
        obtain ⟨rfl, hpath⟩ := List.cons.inj hsplit
        exact ⟨above, by rw [hpath]; exact subset_append_left above _, by rw [hinc]⟩
  · exact ⟨path, List.Subset.refl path, by rw [increment, if_neg htip]⟩

/-- **An accepted chain is exact.** -/
theorem exactChain_of_receive (hacyclic : Acyclic storage) {chain : PushChain Oid}
    (h : receive isProtocolZeroId cmd packCommitIds newCommitIds storage openCl maxCommits = .ok (.chain chain)) :
    ExactChain storage cmd.newId maxCommits chain := by
  have hpack : packCommitIds ≠ [] := by
    rintro rfl
    unfold receive at h
    obtain ⟨tip, -, h⟩ := bind_eq_ok.mp h
    obtain ⟨resolution, hres, h⟩ := bind_eq_ok.mp h
    cases tip with
    | none => cases hres
    | some tip =>
      obtain rfl := Except.ok.inj hres
      cases h
  obtain ⟨chain', heq, htip, ⟨path, stop, hres⟩, hvalid⟩ := (receive_ok_iff hpack).mp h
  obtain rfl := PushChainResolution.chain.inj heq
  obtain ⟨hid, -, -, hlinked, hlen, -⟩ := (validate_ok_iff hacyclic).mp hvalid
  obtain ⟨rest, hrest, hordered⟩ := increment_cons newCommitIds chain.tip path stop
  rw [← hres.ordered] at hordered
  have hall : ∀ commit ∈ chain.orderedCommits, stored storage commit.id = some commit := by
    intro commit hcommit
    rw [hordered] at hcommit
    rcases mem_cons.mp hcommit with rfl | hcommit
    · rw [hid]
      exact htip
    · exact (carried_mem hres.carried commit (hrest hcommit)).2
  refine ⟨htip, ⟨?_, base_notMem_of_linked hacyclic hlinked hall, firstParents_of_linked hlinked hall⟩, hall,
    length_of_linked hlinked, ?_, hlen⟩
  · rw [hordered, map_cons, List.head?_cons, hid]
  · rw [hordered, length_cons]
    omega

/-! ### The walk from a known tip -/

/-- Below `current` these are the stored commits along first parents down to just
above `base`. -/
abbrev Down (storage : List (CommitModel Oid)) (base : Oid) (current : Commit Oid) (path : List (Commit Oid)) : Prop :=
  Carried (· ≠ base) storage current path (some base)

/-- **The walk from a known tip** finds the path if it fits. -/
theorem walkKnown_ok_iff (room : ℕ) : ∀ {current : Commit Oid} {below : List (Commit Oid)},
    walkKnown isProtocolZeroId cmd storage maxCommits room current = .ok below ↔
      Down storage cmd.oldId current below ∧ below.length < room := by
  induction room with
  | zero =>
    intro current below
    refine ⟨fun h => ?_, fun h => absurd h.2 (Nat.not_lt_zero _)⟩
    cases h
  | succ room ih =>
    intro current below
    rw [walkKnown]
    cases hhead : current.parentCommitIds.head? with
    | none =>
      have hdown : ¬Down storage cmd.oldId current below := by
        rw [Down, carried_end (by simp [hhead]), hhead]
        simp
      dsimp only
      split <;> simp [hdown]
    | some parentId =>
      dsimp only
      by_cases hold : parentId = cmd.oldId
      · rw [if_pos hold, Down, carried_end (by simp [hhead, hold]), hhead, hold]
        constructor
        · intro h
          obtain rfl := Except.ok.inj h
          exact ⟨⟨rfl, rfl⟩, Nat.succ_pos room⟩
        · intro h
          rw [h.1.1]
      · rw [if_neg hold, Down, carried_step hhead hold]
        cases hget : getCommitByHash storage parentId with
        | none => simp [stored, hget]
        | some model =>
          have hstored : ∀ parent, stored storage parentId = some parent ↔ commitFromMegaModel model = .ok parent := by
            intro parent
            rw [stored, hget, Option.bind_some]
            cases commitFromMegaModel model <;> simp [Except.toOption]
          dsimp only
          rw [bind_eq_ok]
          constructor
          · rintro ⟨parent, hparent, h⟩
            obtain ⟨rest, hrest, h⟩ := bind_eq_ok.mp h
            obtain rfl := Except.ok.inj h
            obtain ⟨hdown, hlen⟩ := ih.mp hrest
            exact ⟨⟨parent, rest, rfl, (hstored parent).mpr hparent, hdown⟩, Nat.succ_lt_succ hlen⟩
          · rintro ⟨⟨parent, rest, rfl, hparent, hdown⟩, hlen⟩
            refine ⟨parent, (hstored parent).mp hparent, bind_eq_ok.mpr ⟨rest, ih.mpr ⟨hdown, ?_⟩, rfl⟩⟩
            exact Nat.lt_of_succ_lt_succ hlen

theorem fromKnownTip_ok_iff {tip : Commit Oid} (hid : tip.id = cmd.newId) (hmoves : cmd.oldId ≠ cmd.newId)
    {chain : PushChain Oid} :
    fromKnownTip isProtocolZeroId cmd tip storage maxCommits = .ok chain ↔
      ∃ below, chain = ⟨cmd.oldId, tip, tip :: below⟩ ∧ Down storage cmd.oldId tip below ∧
        below.length < maxCommits := by
  rw [fromKnownTip, if_neg (not_not.mpr hid.symm), if_neg hmoves, bind_eq_ok]
  constructor
  · rintro ⟨below, hwalk, h⟩
    exact ⟨below, (Except.ok.inj h).symm, (walkKnown_ok_iff maxCommits).mp hwalk⟩
  · rintro ⟨below, rfl, hwalk⟩
    exact ⟨below, (walkKnown_ok_iff maxCommits).mpr hwalk, rfl⟩

theorem receiveKnownTip_ok_iff (hmoves : cmd.oldId ≠ cmd.newId) {chain : PushChain Oid} :
    receiveKnownTip isProtocolZeroId cmd storage openCl maxCommits = .ok chain ↔
      stored storage cmd.newId = some chain.tip ∧
        (∃ below, chain = ⟨cmd.oldId, chain.tip, chain.tip :: below⟩ ∧ Down storage cmd.oldId chain.tip below ∧
          below.length < maxCommits) ∧
        validate chain cmd storage openCl maxCommits = .ok () := by
  rw [receiveKnownTip, bind_eq_ok]
  constructor
  · rintro ⟨_ | tip, htip, h⟩
    · cases h
    · obtain ⟨chain', hknown, h⟩ := bind_eq_ok.mp h
      obtain ⟨hvalid, heq⟩ := check_bind_eq_ok.mp h
      obtain rfl := Except.ok.inj heq
      have hstored := tipCommit_eq_some.mp htip
      obtain ⟨-, -, -, -, hid, -⟩ := stored_some hstored
      obtain ⟨below, rfl, hdown, hlen⟩ := (fromKnownTip_ok_iff hid hmoves).mp hknown
      exact ⟨hstored, ⟨below, rfl, hdown, hlen⟩, hvalid⟩
  · rintro ⟨hstored, hknown, hvalid⟩
    obtain ⟨-, -, -, -, hid, -⟩ := stored_some hstored
    refine ⟨some chain.tip, tipCommit_eq_some.mpr hstored, bind_eq_ok.mpr ⟨chain, ?_, ?_⟩⟩
    · exact (fromKnownTip_ok_iff hid hmoves).mpr hknown
    · exact check_bind_eq_ok.mpr ⟨hvalid, rfl⟩

/-! ### Both resolvers -/

theorem resolveBase_of_nonzero (hzero : isProtocolZeroId cmd.oldId = false) (fork : Option Oid) :
    resolveBase isProtocolZeroId cmd storage fork = .ok cmd.oldId := by
  unfold resolveBase
  rw [if_pos hzero]

/-- A pack of known commits just above the old one: what is accepted of it. -/
theorem receive_of_known_path (hacyclic : Acyclic storage) (hzero : isProtocolZeroId cmd.oldId = false)
    {ids : List Oid} (hpath : FirstParentPath storage cmd.newId cmd.oldId ids)
    (hpack : ∀ id, id ∈ packCommitIds ↔ id ∈ ids) {resolution : PushChainResolution Oid}
    (h : receive isProtocolZeroId cmd packCommitIds [] storage openCl maxCommits = .ok resolution) :
    ∃ chain, resolution = .chain chain ∧ stored storage cmd.newId = some chain.tip ∧
      (∃ below, chain = ⟨cmd.oldId, chain.tip, chain.tip :: below⟩ ∧ Down storage cmd.oldId chain.tip below ∧
        below.length < maxCommits) ∧
      validate chain cmd storage openCl maxCommits = .ok () := by
  have hne : packCommitIds ≠ [] := ne_nil_of_mem ((hpack cmd.newId).mpr (mem_of_mem_head? hpath.head))
  obtain ⟨chain, rfl, htip, ⟨path, stop, hres⟩, hvalid⟩ := (receive_ok_iff hne).mp h
  obtain ⟨base, tip, ordered⟩ := chain
  obtain ⟨-, -, -, hlinked, hlen, -⟩ := (validate_ok_iff hacyclic).mp hvalid
  have hordered : ordered = tip :: path := hres.ordered
  have hbase : base = cmd.oldId := by
    exact (Except.ok.inj ((resolveBase_of_nonzero hzero _).symm.trans hres.base)).symm
  subst hordered hbase
  refine ⟨_, rfl, htip, ⟨path, rfl, carried_of_linked (fun h => h rfl) hlinked fun commit hcommit => ?_, hlen⟩, hvalid⟩
  obtain ⟨hmem, hstored⟩ := carried_mem hres.carried commit hcommit
  refine ⟨fun hid => hpath.above ?_, hstored⟩
  rw [← hid]
  exact (hpack commit.id).mp hmem

/-- **Both resolvers accept the same chains** of a pack that carries just the known
commits between the old and the new one. -/
theorem receive_iff_knownTip (hacyclic : Acyclic storage) (hzero : isProtocolZeroId cmd.oldId = false)
    (hmoves : cmd.oldId ≠ cmd.newId) {ids : List Oid} (hpath : FirstParentPath storage cmd.newId cmd.oldId ids)
    (hpack : ∀ id, id ∈ packCommitIds ↔ id ∈ ids) {resolution : PushChainResolution Oid} :
    receive isProtocolZeroId cmd packCommitIds [] storage openCl maxCommits = .ok resolution ↔
      ∃ chain, resolution = .chain chain ∧
        receiveKnownTip isProtocolZeroId cmd storage openCl maxCommits = .ok chain := by
  constructor
  · intro h
    obtain ⟨chain, rfl, haccepted⟩ := receive_of_known_path hacyclic hzero hpath hpack h
    exact ⟨chain, rfl, (receiveKnownTip_ok_iff hmoves).mpr haccepted⟩
  · rintro ⟨chain, rfl, h⟩
    obtain ⟨htip, ⟨below, hchain, hdown, -⟩, hvalid⟩ := (receiveKnownTip_ok_iff hmoves).mp h
    obtain ⟨base, tip, ordered⟩ := chain
    obtain ⟨rfl, rfl⟩ : base = cmd.oldId ∧ ordered = tip :: below := by simpa using hchain
    obtain ⟨hid, -, -, hlinked, hlen, hhistory⟩ := (validate_ok_iff hacyclic).mp hvalid
    have hall : ∀ commit ∈ tip :: below, stored storage commit.id = some commit := by
      intro commit hcommit
      rcases mem_cons.mp hcommit with rfl | hcommit
      · rw [show commit.id = cmd.newId from hid]
        exact htip
      · exact (carried_mem hdown commit hcommit).2
    have hids : ids = (tip :: below).map (·.id) := by
      refine firstParents_unique ?_ hpath.above (base_notMem_of_linked hacyclic hlinked hall) hpath.steps
        (firstParents_of_linked hlinked hall)
      rw [hpath.head, map_cons, List.head?_cons, show tip.id = cmd.newId from hid]
    have hline : PackLine packCommitIds storage cmd.newId cmd.oldId (tip :: below) := by
      refine ⟨?_, hall, hlinked, fun id => ?_⟩
      · rw [List.head?_cons, Option.map_some, show tip.id = cmd.newId from hid]
      · rw [hpack id, hids]
    have hne : packCommitIds ≠ [] := ne_nil_of_mem ((hpack cmd.newId).mpr (mem_of_mem_head? hpath.head))
    obtain ⟨resolution, hok⟩ := (retry_accepted_iff hacyclic hne).mpr
      ⟨tip :: below, cmd.oldId, hline, resolveBase_of_nonzero hzero _, hlen, hhistory⟩
    -- the accepted chain is the same one: it has the same tip and the same path below it
    obtain ⟨chain', rfl, htip', ⟨below', hchain', hdown', -⟩, -⟩ :=
      receive_of_known_path hacyclic hzero hpath hpack hok
    have hsame : chain'.tip = tip := Option.some.inj (htip'.symm.trans htip)
    rw [hsame] at hchain' hdown'
    rw [(carried_unique hdown' hdown).1] at hchain'
    rw [hok, hchain']

/-! ### No cycles -/

omit [DecidableEq Oid] in
theorem walkBudget_ne_cycleBelow {tipIsNew parentIsNew : Bool} {pathLen newLen knownLen : ℕ} (id : Oid) :
    walkBudget cmd maxCommits tipIsNew parentIsNew pathLen newLen knownLen ≠ .error (.cycleBelow id) := by
  unfold walkBudget
  split_ifs <;> simp

theorem readCarried_ne_cycleBelow {childId parentId : Oid} {claimed : Bool} (id : Oid) :
    readCarried storage childId parentId claimed ≠ .error (.cycleBelow id) := by
  unfold readCarried
  cases getCommitByHash storage parentId with
  | none => simp
  | some model =>
    dsimp only
    unfold commitFromMegaModel
    cases model.parentsId with
    | none => simp [bind, Except.bind]
    | some parents =>
      cases model.native with
      | false => simp [bind, Except.bind]
      | true =>
        simp only [bind, Except.bind, if_true]
        split_ifs <;> simp

/-- The walk over the pack does not end by the size of the pack: the commits of
the path so far and the next parent are different members of it. -/
theorem walkPack_ne_cycleBelow (hacyclic : Acyclic storage) {tipId : Oid} (left : ℕ) :
    ∀ {pathLen newLen knownLen : ℕ} {current : Commit Oid} {above : List Oid},
    stored storage current.id = some current → (above ++ [current.id]).IsChain (HasParent storage) →
    above ++ [current.id] ⊆ packCommitIds → packCommitIds.length ≤ above.length + 1 + left →
    ∀ id, walkPack cmd packCommitIds newCommitIds tipId storage maxCommits left pathLen newLen knownLen current ≠
      .error (.cycleBelow id) := by
  induction left with
  | zero =>
    intro pathLen newLen knownLen current above hstored hchain hsub hlen id h
    rw [walkPack] at h
    cases hhead : current.parentCommitIds.head? with
    | none => simp [hhead] at h
    | some parentId =>
      by_cases hmem : parentId ∈ packCommitIds
      · have hstep : HasParent storage current.id parentId :=
          hasParent_of_firstParent ((firstParent_of_stored hstored).trans hhead)
        have hnodup := nodup_of_acyclic hacyclic (isChain_snoc hchain hstep)
        have hle := (hnodup.subperm (append_subset.mpr ⟨hsub, by simpa using hmem⟩)).length_le
        simp only [length_append, length_singleton] at hle
        omega
      · simp [hhead, hmem] at h
  | succ left ih =>
    intro pathLen newLen knownLen current above hstored hchain hsub hlen id h
    rw [walkPack] at h
    cases hhead : current.parentCommitIds.head? with
    | none => simp [hhead] at h
    | some parentId =>
      by_cases hmem : parentId ∈ packCommitIds
      · have hstep : HasParent storage current.id parentId :=
          hasParent_of_firstParent ((firstParent_of_stored hstored).trans hhead)
        simp only [hhead, if_neg (not_not.mpr hmem)] at h
        rcases Fallible.bind_eq_error.mp h with hbudget | ⟨lens, -, hafter⟩
        · exact walkBudget_ne_cycleBelow id hbudget
        rcases Fallible.bind_eq_error.mp hafter with hfailed | ⟨parent, hread, hbelow⟩
        · exact readCarried_ne_cycleBelow id hfailed
        obtain ⟨hparent, -⟩ := readCarried_ok_iff.mp hread
        obtain ⟨-, -, -, -, hid, -⟩ := stored_some hparent
        subst hid
        rcases Fallible.bind_eq_error.mp hbelow with hrest | ⟨below, -, hdone⟩
        · refine ih hparent (isChain_snoc hchain hstep) ?_ ?_ id hrest
          · exact append_subset.mpr ⟨hsub, by simpa using hmem⟩
          · simp only [length_append, length_singleton]
            omega
        · cases hdone
      · simp [hhead, hmem] at h

theorem resolveBase_ne_cycleBelow {fork : Option Oid} (id : Oid) :
    resolveBase isProtocolZeroId cmd storage fork ≠ .error (.cycleBelow id) := by
  unfold resolveBase
  cases fork with
  | none => split_ifs <;> simp
  | some fork =>
    dsimp only
    split_ifs <;> simp

/-- **`resolve` never reports a cycle** over an acyclic storage. -/
theorem resolve_ne_cycleBelow (hacyclic : Acyclic storage) {tip : Option (Commit Oid)}
    (htip : tipCommit storage cmd.newId = .ok tip) (id : Oid) :
    resolve isProtocolZeroId cmd packCommitIds newCommitIds tip storage maxCommits ≠ .error (.cycleBelow id) := by
  intro h
  unfold resolve at h
  cases tip with
  | none => cases hempty : packCommitIds.isEmpty <;> simp [hempty] at h
  | some tip =>
    have hstored := tipCommit_eq_some.mp htip
    obtain ⟨-, -, -, -, hid, -⟩ := stored_some hstored
    rw [← hid] at hstored
    cases hempty : packCommitIds.isEmpty with
    | true => simp [hempty] at h
    | false =>
      simp only [hempty] at h
      by_cases hmem : tip.id ∈ packCommitIds
      · rw [if_neg (not_not.mpr hmem)] at h
        split_ifs at h
        · cases h
        rcases Fallible.bind_eq_error.mp h with hwalk | ⟨walked, -, hafter⟩
        · have hstart : ([] ++ [tip.id]).IsChain (HasParent storage) := isChain_singleton _
          refine walkPack_ne_cycleBelow hacyclic _ hstored hstart ?_ ?_ id hwalk
          · simpa using hmem
          · simp only [length_nil]
            omega
        · cases hjunk : junk packCommitIds (tip :: walked.1) with
          | cons first others => simp [hjunk] at hafter
          | nil =>
            simp only [hjunk] at hafter
            rcases Fallible.bind_eq_error.mp hafter with hbase | ⟨base, -, hdone⟩
            · exact resolveBase_ne_cycleBelow id hbase
            · cases hdone
      · rw [if_pos hmem] at h
        cases h

end Push

/-! ### The statement -/

/-- **Accepted chains are exact, and both resolvers agree.** Over an acyclic storage, what `resolve`
and then `validate` accept is the first-parent path from the new tip to the base; of a pack that
carries just the known commits between old and new commit, `from_known_tip` and then `validate`
accept the same chains; and `resolve` never reports a cycle. -/
theorem push_chains_exact (storage : List (CommitModel Oid)) (hacyclic : Acyclic storage)
    (isProtocolZeroId : Oid → Bool) (cmd : RefCommand Oid) (packCommitIds newCommitIds : List Oid)
    (openCl : Option (Cl Oid)) (maxCommits : ℕ) :
    (∀ chain, receive isProtocolZeroId cmd packCommitIds newCommitIds storage openCl maxCommits =
        .ok (.chain chain) → ExactChain storage cmd.newId maxCommits chain) ∧
      (∀ ids, isProtocolZeroId cmd.oldId = false → cmd.oldId ≠ cmd.newId →
        FirstParentPath storage cmd.newId cmd.oldId ids → (∀ id, id ∈ packCommitIds ↔ id ∈ ids) →
        (∀ id ∈ packCommitIds, id ∉ newCommitIds) → ∀ resolution,
        (receive isProtocolZeroId cmd packCommitIds newCommitIds storage openCl maxCommits = .ok resolution ↔
          ∃ chain, resolution = .chain chain ∧
            receiveKnownTip isProtocolZeroId cmd storage openCl maxCommits = .ok chain)) ∧
      ∀ tip tipId, tipCommit storage cmd.newId = .ok tip →
        resolve isProtocolZeroId cmd packCommitIds newCommitIds tip storage maxCommits ≠
          .error (.cycleBelow tipId) := by
  refine ⟨fun chain h => exactChain_of_receive hacyclic h, ?_, ?_⟩
  · intro ids hzero hmoves hpath hpack hknown resolution
    have htip : cmd.newId ∉ newCommitIds :=
      hknown cmd.newId ((hpack cmd.newId).mpr (mem_of_mem_head? hpath.head))
    rw [receive_of_known_tip htip]
    exact receive_iff_knownTip hacyclic hzero hmoves hpath hpack
  · intro tip tipId htip
    exact resolve_ne_cycleBelow hacyclic htip tipId

/-- Three commits in a row. -/
def storedLine : List (CommitModel ℕ) := [⟨1, some [], true⟩, ⟨2, some [1], true⟩, ⟨3, some [2], true⟩]

theorem acyclic_storedLine : Acyclic storedLine :=
  acyclic_of_rank id (by decide)

theorem push_chains_exact_storedLine :
    Acyclic storedLine ∧
      receiveKnownTip (· == 0) moveToThree storedLine none 2 = .ok ⟨1, ⟨3, [2]⟩, [⟨3, [2]⟩, ⟨2, [1]⟩]⟩ ∧
      receive (· == 0) moveToThree [2, 3] [] storedLine none 2 =
        .ok (.chain ⟨1, ⟨3, [2]⟩, [⟨3, [2]⟩, ⟨2, [1]⟩]⟩) := by
  refine ⟨acyclic_storedLine, by decide, ?_⟩
  refine ((push_chains_exact storedLine acyclic_storedLine (· == 0) moveToThree [2, 3] [] none 2).2.1 [3, 2]
    (by decide) (by decide) ⟨rfl, by decide, by decide⟩ (by simp [or_comm]) (by simp) _).mpr ?_
  exact ⟨_, rfl, by decide⟩

end Push
end Mega
