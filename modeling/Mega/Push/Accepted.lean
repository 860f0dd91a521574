/-
# What an accepted push is

When `resolve` and `validate` accept a push, in terms of the pack and the
storage. The path is determined by what the pack carries (`Carried`); which of
its commits are new only decides the budgets and where the increment ends
(`walkPack_ok_iff`). The increment has to be a line of single parents down to
the base (`checkIncrement_ok_iff`), and the history of a change list has to
reach its start within the limit (`walkHistory_ok_iff`).

The storage is taken to have no cycles. A walk along first parents then never
returns, and the checks for cycles answer nothing.

Key definitions: `stored`, `Carried`, `Linked`, `Reaches`, `Acyclic`.
Key theorems: `walkPack_ok_iff`, `validate_ok_iff`, `receive_ok_iff`.
-/
import Mega.Lib.Fallible
import Mega.Push.Chain

namespace Mega
namespace Push

open List Fallible

variable {Oid : Type} [DecidableEq Oid] {storage : List (CommitModel Oid)}
variable {commit current : Commit Oid} {parentId : Oid} {path : List (Commit Oid)}

/-! ### Stored commits -/

/-- The commit of an id, if it is stored and converts. -/
def stored (storage : List (CommitModel Oid)) (id : Oid) : Option (Commit Oid) :=
  (getCommitByHash storage id).bind fun model => (commitFromMegaModel model).toOption

omit [DecidableEq Oid] in
theorem commitFromMegaModel_ok {model : CommitModel Oid} (h : commitFromMegaModel model = .ok commit) :
    commit.id = model.commitId ∧ model.parentsId = some commit.parentCommitIds := by
  unfold commitFromMegaModel at h
  split at h
  · cases h
  · rename_i parents hparents
    split at h
    · cases h
      exact ⟨rfl, hparents⟩
    · cases h

theorem getCommitByHash_some {id : Oid} {model : CommitModel Oid}
    (h : getCommitByHash storage id = some model) : model ∈ storage ∧ model.commitId = id := by
  refine ⟨mem_of_find?_eq_some h, ?_⟩
  have hid := List.find?_some h
  simpa using hid

theorem stored_some {id : Oid} (h : stored storage id = some commit) :
    ∃ model ∈ storage,
      getCommitByHash storage id = some model ∧ model.commitId = id ∧ commit.id = id ∧
        model.parentsId = some commit.parentCommitIds := by
  obtain ⟨model, hmodel, hcommit⟩ := Option.bind_eq_some_iff.mp h
  obtain ⟨hmem, hid⟩ := getCommitByHash_some hmodel
  cases hconv : commitFromMegaModel model with
  | error e =>
    rw [hconv] at hcommit
    cases hcommit
  | ok c =>
    rw [hconv] at hcommit
    cases hcommit
    obtain ⟨hcid, hparents⟩ := commitFromMegaModel_ok hconv
    exact ⟨model, hmem, hmodel, hid, hcid.trans hid, hparents⟩

theorem eq_of_stored {commit' : Commit Oid} (h : stored storage commit.id = some commit)
    (h' : stored storage commit'.id = some commit') (hid : commit.id = commit'.id) : commit = commit' := by
  rw [hid, h'] at h
  exact (Option.some.inj h).symm

theorem readCarried_ok_iff {childId : Oid} {claimed : Bool} {parent : Commit Oid} :
    readCarried storage childId parentId claimed = .ok parent ↔
      stored storage parentId = some parent ∧ (claimed → parent.parentCommitIds.length ≤ 1) := by
  unfold readCarried stored
  cases getCommitByHash storage parentId with
  | none => simp
  | some model =>
    cases hconv : commitFromMegaModel model with
    | error e => simp [hconv, bind_eq_ok, Except.toOption]
    | ok c =>
      simp only [Option.bind_some, hconv, Except.toOption, bind_eq_ok, guard_eq_ok, Option.some.injEq,
        Except.ok.injEq, exists_eq_left', not_and, not_lt]
      rw [and_comm]
      exact and_congr_right fun heq => by rw [heq]

/-! ### The path through the pack -/

/-- Below `current` these are exactly the commits that are carried along first
parents, and the walk stops at `stop`. -/
def Carried (carries : Oid → Prop) (storage : List (CommitModel Oid)) :
    (current : Commit Oid) → List (Commit Oid) → (stop : Option Oid) → Prop
  | current, [], stop => current.parentCommitIds.head? = stop ∧ ∀ id ∈ stop, ¬carries id
  | current, parent :: rest, stop =>
    current.parentCommitIds.head? = some parent.id ∧ carries parent.id ∧
      stored storage parent.id = some parent ∧ Carried carries storage parent rest stop

/-- What the budgets and the rule against merges ask of the path. -/
def Affords (cmd : RefCommand Oid) (newCommitIds : List Oid) (tipId : Oid) (maxCommits : ℕ) :
    (pathLen newLen knownLen : ℕ) → List (Commit Oid) → Prop
  | _, _, _, [] => True
  | pathLen, newLen, knownLen, parent :: rest =>
    ∃ lens, walkBudget cmd maxCommits (decide (tipId ∈ newCommitIds)) (decide (parent.id ∈ newCommitIds))
        pathLen newLen knownLen = .ok lens ∧
      ((tipId ∈ newCommitIds → parent.id ∈ newCommitIds) → parent.parentCommitIds.length ≤ 1) ∧
      Affords cmd newCommitIds tipId maxCommits (pathLen + 1) lens.1 lens.2 rest

theorem carried_end {carries : Oid → Prop}
    (h : ∀ id ∈ current.parentCommitIds.head?, ¬carries id) {stop : Option Oid} :
    Carried carries storage current path stop ↔ path = [] ∧ stop = current.parentCommitIds.head? := by
  cases path with
  | nil =>
    refine ⟨fun hc => ⟨rfl, hc.1.symm⟩, fun hc => ⟨hc.2.symm, ?_⟩⟩
    rw [hc.2]
    exact h
  | cons parent rest =>
    refine ⟨fun hc => absurd hc.2.1 (h parent.id hc.1), fun hc => ?_⟩
    cases hc.1

theorem carried_step {carries : Oid → Prop}
    (hhead : current.parentCommitIds.head? = some parentId) (hcarries : carries parentId) {stop : Option Oid} :
    Carried carries storage current path stop ↔
      ∃ parent rest, path = parent :: rest ∧ stored storage parentId = some parent ∧
        Carried carries storage parent rest stop := by
  cases path with
  | nil =>
    constructor
    · intro hc
      exact absurd hcarries (hc.2 parentId (by rw [← hc.1, hhead]; rfl))
    · intro hc
      obtain ⟨parent, rest, hnil, -⟩ := hc
      cases hnil
  | cons parent rest =>
    constructor
    · intro hc
      obtain ⟨hid, -, hstored, hrest⟩ := hc
      obtain rfl : parentId = parent.id := Option.some.inj (hhead.symm.trans hid)
      exact ⟨parent, rest, rfl, hstored, hrest⟩
    · intro hc
      obtain ⟨parent', rest', heq, hstored, hrest⟩ := hc
      cases heq
      obtain ⟨-, -, -, -, hid, -⟩ := stored_some hstored
      subst hid
      exact ⟨hhead, hcarries, hstored, hrest⟩

section Walk

variable {cmd : RefCommand Oid} {packCommitIds newCommitIds : List Oid} {tipId : Oid} {maxCommits : ℕ}

theorem walkPack_end_ok_iff (hend : ∀ id ∈ current.parentCommitIds.head?, id ∉ packCommitIds)
    {left pathLen newLen knownLen : ℕ} {stop : Option Oid} :
    walkPack cmd packCommitIds newCommitIds tipId storage maxCommits left pathLen newLen knownLen current =
        .ok (path, stop) ↔
      Carried (· ∈ packCommitIds) storage current path stop ∧ path.length ≤ left ∧
        Affords cmd newCommitIds tipId maxCommits pathLen newLen knownLen path := by
  have hwalk : walkPack cmd packCommitIds newCommitIds tipId storage maxCommits left pathLen newLen knownLen
      current = .ok ([], current.parentCommitIds.head?) := by
    rw [walkPack.eq_def]
    dsimp only
    cases hhead : current.parentCommitIds.head? with
    | none => rfl
    | some parentId => exact if_pos (hend parentId hhead)
  rw [carried_end hend, hwalk]
  constructor
  · intro h
    cases h
    exact ⟨⟨rfl, rfl⟩, Nat.zero_le _, trivial⟩
  · intro h
    rw [h.1.1, h.1.2]

theorem walkPack_zero_ne_ok (hhead : current.parentCommitIds.head? = some parentId)
    (hpack : parentId ∈ packCommitIds) (pathLen newLen knownLen : ℕ) (walked : List (Commit Oid) × Option Oid) :
    walkPack cmd packCommitIds newCommitIds tipId storage maxCommits 0 pathLen newLen knownLen current ≠
      .ok walked := by
  intro h
  rw [walkPack, hhead] at h
  simp only [hpack, not_true_eq_false, if_false] at h
  obtain ⟨lens, -, herror⟩ := bind_eq_ok.mp h
  cases herror

theorem walkPack_succ_ok_iff (hhead : current.parentCommitIds.head? = some parentId)
    (hpack : parentId ∈ packCommitIds) {left pathLen newLen knownLen : ℕ} {walked : List (Commit Oid) × Option Oid} :
    walkPack cmd packCommitIds newCommitIds tipId storage maxCommits (left + 1) pathLen newLen knownLen current =
        .ok walked ↔
      ∃ lens, walkBudget cmd maxCommits (decide (tipId ∈ newCommitIds)) (decide (parentId ∈ newCommitIds))
          pathLen newLen knownLen = .ok lens ∧
        ∃ parent, (stored storage parentId = some parent ∧
            ((tipId ∈ newCommitIds → parentId ∈ newCommitIds) → parent.parentCommitIds.length ≤ 1)) ∧
          ∃ below, walkPack cmd packCommitIds newCommitIds tipId storage maxCommits left (pathLen + 1)
              lens.1 lens.2 parent = .ok below ∧
            (parent :: below.1, below.2) = walked := by
  rw [walkPack, hhead]
  simp only [hpack, not_true_eq_false, if_false, bind_eq_ok, readCarried_ok_iff, Except.ok.injEq]
  have hclaimed : ∀ parent : Commit Oid,
      (((if decide (tipId ∈ newCommitIds) = true then decide (parentId ∈ newCommitIds) else true) = true →
        parent.parentCommitIds.length ≤ 1) ↔
      ((tipId ∈ newCommitIds → parentId ∈ newCommitIds) → parent.parentCommitIds.length ≤ 1)) := by
    intro parent
    by_cases htip : tipId ∈ newCommitIds <;> simp [htip]
  simp only [hclaimed]

/-- **The walk finds the carried path**, if it is affordable. -/
theorem walkPack_ok_iff (left : ℕ) : ∀ {pathLen newLen knownLen : ℕ} {current : Commit Oid}
    {path : List (Commit Oid)} {stop : Option Oid},
    walkPack cmd packCommitIds newCommitIds tipId storage maxCommits left pathLen newLen knownLen current =
        .ok (path, stop) ↔
      Carried (· ∈ packCommitIds) storage current path stop ∧ path.length ≤ left ∧
        Affords cmd newCommitIds tipId maxCommits pathLen newLen knownLen path := by
  induction left with
  | zero =>
    intro pathLen newLen knownLen current path stop
    by_cases hend : ∀ id ∈ current.parentCommitIds.head?, id ∉ packCommitIds
    · exact walkPack_end_ok_iff hend
    · push Not at hend
      obtain ⟨parentId, hhead, hpack⟩ := hend
      refine ⟨fun h => absurd h (walkPack_zero_ne_ok hhead hpack _ _ _ _), fun h => ?_⟩
      obtain ⟨parent, rest, rfl, -⟩ := (carried_step hhead hpack).mp h.1
      simp at h
  | succ left ih =>
    intro pathLen newLen knownLen current path stop
    by_cases hend : ∀ id ∈ current.parentCommitIds.head?, id ∉ packCommitIds
    · exact walkPack_end_ok_iff hend
    · push Not at hend
      obtain ⟨parentId, hhead, hpack⟩ := hend
      rw [walkPack_succ_ok_iff hhead hpack, carried_step hhead hpack]
      constructor
      · intro h
        obtain ⟨lens, hlens, parent, ⟨hstored, hmerge⟩, below, hbelow, heq⟩ := h
        cases heq
        obtain ⟨hcarried, hlen, hrest⟩ := ih.mp hbelow
        obtain ⟨-, -, -, -, hid, -⟩ := stored_some hstored
        refine ⟨⟨parent, below.1, rfl, hstored, hcarried⟩, by simpa using hlen, lens, ?_, ?_, hrest⟩
        · rw [hid]
          exact hlens
        · rw [hid]
          exact hmerge
      · intro h
        obtain ⟨⟨parent, rest, rfl, hstored, hcarried⟩, hlen, lens, hlens, hmerge, hrest⟩ := h
        obtain ⟨-, -, -, -, hid, -⟩ := stored_some hstored
        rw [hid] at hlens hmerge
        exact ⟨lens, hlens, parent, ⟨hstored, hmerge⟩, (rest, stop),
          ih.mpr ⟨hcarried, by simpa using hlen, hrest⟩, rfl⟩

/-- For a known tip the whole path counts. -/
theorem affords_known_iff (htip : tipId ∉ newCommitIds) : ∀ {path : List (Commit Oid)}
    {pathLen newLen knownLen : ℕ},
    Affords cmd newCommitIds tipId maxCommits pathLen newLen knownLen path ↔
      (path ≠ [] → pathLen + path.length ≤ maxCommits) ∧ ∀ commit ∈ path, commit.parentCommitIds.length ≤ 1
  | [], _, _, _ => by simp [Affords]
  | parent :: rest, pathLen, newLen, knownLen => by
    have hbudget : ∀ lens, walkBudget cmd maxCommits (decide (tipId ∈ newCommitIds))
        (decide (parent.id ∈ newCommitIds)) pathLen newLen knownLen = .ok lens ↔
        pathLen < maxCommits ∧ (newLen, knownLen) = lens := by
      intro lens
      by_cases hfull : pathLen ≥ maxCommits
      · simp [walkBudget, htip, hfull]
      · simp [walkBudget, htip, hfull, Nat.lt_of_not_ge hfull]
    rw [Affords]
    simp only [hbudget]
    simp only [htip, false_implies, true_implies]
    constructor
    · intro h
      obtain ⟨lens, ⟨hlt, rfl⟩, hmerge, hrest⟩ := h
      obtain ⟨hlen, hall⟩ := (affords_known_iff htip).mp hrest
      refine ⟨fun _ => ?_, fun commit hcommit => ?_⟩
      · rcases rest with _ | ⟨next, rest⟩
        · simpa using hlt
        · have := hlen (by simp)
          simp only [length_cons] at this ⊢
          omega
      · rcases mem_cons.mp hcommit with rfl | hcommit
        · exact hmerge
        · exact hall commit hcommit
    · intro h
      obtain ⟨hlen, hall⟩ := h
      have hlen' := hlen (by simp)
      rw [length_cons] at hlen'
      refine ⟨_, ⟨by omega, rfl⟩, hall parent (by simp), (affords_known_iff htip).mpr ⟨fun _ => by omega, ?_⟩⟩
      exact fun commit hcommit => hall commit (mem_cons_of_mem _ hcommit)

/-- What a path that fits as a whole affords to a new tip. -/
theorem affords_new (htip : tipId ∈ newCommitIds) : ∀ {path : List (Commit Oid)} {pathLen newLen knownLen : ℕ},
    (∀ commit ∈ path, commit.parentCommitIds.length ≤ 1) → newLen + path.length ≤ maxCommits →
    knownLen + path.length ≤ maxCommits →
    Affords cmd newCommitIds tipId maxCommits pathLen newLen knownLen path
  | [], _, _, _, _, _, _ => trivial
  | parent :: rest, pathLen, newLen, knownLen, hall, hnew, hknown => by
    rw [length_cons] at hnew hknown
    have hrest : ∀ commit ∈ rest, commit.parentCommitIds.length ≤ 1 :=
      fun commit hcommit => hall commit (mem_cons_of_mem _ hcommit)
    by_cases hparent : parent.id ∈ newCommitIds
    · refine ⟨(newLen + 1, knownLen), ?_, fun _ => hall parent (by simp), affords_new htip hrest ?_ ?_⟩
      · have hroom : ¬newLen ≥ maxCommits := by omega
        simp [walkBudget, htip, hparent, hroom]
      · omega
      · omega
    · refine ⟨(newLen, knownLen + 1), ?_, fun _ => hall parent (by simp), affords_new htip hrest ?_ ?_⟩
      · have hroom : ¬knownLen ≥ maxCommits := by omega
        simp [walkBudget, htip, hparent, hroom]
      · omega
      · omega

end Walk

/-! ### The increment -/

/-- A line of single parents from the newest commit down to the base. -/
def Linked (base : Oid) : List (Commit Oid) → Prop
  | [] => True
  | commit :: rest => commit.parentCommitIds = [(rest.head?.map (·.id)).getD base] ∧ Linked base rest

omit [DecidableEq Oid] in
theorem single_parent_iff {id : Oid} :
    commit.parentCommitIds.length ≤ 1 ∧ commit.parentCommitIds.head? = some id ↔
      commit.parentCommitIds = [id] := by
  rcases hparents : commit.parentCommitIds with _ | ⟨p, _ | ⟨q, rest⟩⟩
  · simp
  · simp
  · simp

theorem checkIncrement_cons_ok_iff {base tipId : Oid} {idx : ℕ} {visited : List Oid} {rest : List (Commit Oid)} :
    checkIncrement base tipId idx visited (commit :: rest) = .ok () ↔
      (idx = 0 → commit.id = tipId) ∧ commit.id ∉ visited ∧
        commit.parentCommitIds = [(rest.head?.map (·.id)).getD base] ∧
        checkIncrement base tipId (idx + 1) (commit.id :: visited) rest = .ok () := by
  rw [checkIncrement, guard_eq_ok, guard_eq_ok, guard_eq_ok, ← single_parent_iff]
  cases rest.head? with
  | none =>
    simp only [guard_eq_ok, not_lt, Option.map_none, Option.getD_none]
    tauto
  | some next =>
    simp only [guard_eq_ok, not_lt, Option.map_some, Option.getD_some]
    tauto

/-- **The increment is a line of single parents** that starts at the tip and
repeats nothing. -/
theorem checkIncrement_ok_iff {base tipId : Oid} : ∀ {commits : List (Commit Oid)} {idx : ℕ} {visited : List Oid},
    checkIncrement base tipId idx visited commits = .ok () ↔
      (idx = 0 → ∀ commit ∈ commits.head?, commit.id = tipId) ∧ (commits.map (·.id)).Nodup ∧
        (∀ commit ∈ commits, commit.id ∉ visited) ∧ Linked base commits
  | [], _, _ => by simp [checkIncrement, Linked]
  | commit :: rest, idx, visited => by
    rw [checkIncrement_cons_ok_iff, checkIncrement_ok_iff]
    constructor
    · intro h
      obtain ⟨hfirst, hseen, hparents, -, hnodup, hvisited, hlinked⟩ := h
      refine ⟨fun hidx c hc => ?_, ?_, ?_, hparents, hlinked⟩
      · obtain rfl : commit = c := by simpa using hc
        exact hfirst hidx
      · refine nodup_cons.mpr ⟨fun hmem => ?_, hnodup⟩
        obtain ⟨c, hc, hid⟩ := mem_map.mp hmem
        exact hvisited c hc (by rw [hid]; simp)
      · intro c hc
        rcases mem_cons.mp hc with rfl | hc
        · exact hseen
        · exact fun hv => hvisited c hc (mem_cons_of_mem _ hv)
    · intro h
      obtain ⟨hfirst, hnodup, hvisited, hparents, hlinked⟩ := h
      obtain ⟨hnot, hnodup'⟩ := nodup_cons.mp hnodup
      refine ⟨fun hidx => hfirst hidx commit rfl, hvisited commit (by simp), hparents, by simp, hnodup',
        fun c hc hv => ?_, hlinked⟩
      rcases mem_cons.mp hv with hid | hv
      · exact hnot (mem_map.mpr ⟨c, hc, hid⟩)
      · exact hvisited c (mem_cons_of_mem _ hc) hv

/-! ### Walks that never return -/

/-- The stored commit has this parent. -/
def HasParent (storage : List (CommitModel Oid)) (child parent : Oid) : Prop :=
  ∃ model ∈ storage, model.commitId = child ∧ ∃ parents, model.parentsId = some parents ∧ parent ∈ parents

def Acyclic (storage : List (CommitModel Oid)) : Prop := ∀ id, ¬Relation.TransGen (HasParent storage) id id

omit [DecidableEq Oid] in
theorem nodup_of_acyclic (hacyclic : Acyclic storage) {ids : List Oid}
    (h : ids.IsChain (HasParent storage)) : ids.Nodup := by
  have htrans : ids.IsChain (Relation.TransGen (HasParent storage)) := h.imp fun _ _ => .single
  have hpair := isChain_iff_pairwise.mp htrans
  refine hpair.imp fun {a b} hab heq => ?_
  rw [heq] at hab
  exact hacyclic _ hab

/-- The first parent that the history walk reads. -/
def firstParent (storage : List (CommitModel Oid)) (id : Oid) : Option Oid :=
  (getCommitByHash storage id).bind fun model => model.parentsId.bind (·.head?)

theorem hasParent_of_firstParent {child parent : Oid}
    (h : firstParent storage child = some parent) : HasParent storage child parent := by
  obtain ⟨model, hmodel, hparents⟩ := Option.bind_eq_some_iff.mp h
  obtain ⟨parents, hsome, hhead⟩ := Option.bind_eq_some_iff.mp hparents
  obtain ⟨hmem, hid⟩ := getCommitByHash_some hmodel
  exact ⟨model, hmem, hid, parents, hsome, mem_of_mem_head? hhead⟩

/-- `target` is the `n`th first parent, and none before it. -/
def Reaches (storage : List (CommitModel Oid)) (target : Oid) : ℕ → Oid → Prop
  | 0, id => id = target
  | n + 1, id => id ≠ target ∧ ∃ parent, firstParent storage id = some parent ∧ Reaches storage target n parent

theorem exists_reaches_iff {target current : Oid} (hne : current ≠ target) {room : ℕ} :
    (∃ n ≤ room, Reaches storage target n current) ↔ ∃ left, room = left + 1 ∧
      ∃ parent, firstParent storage current = some parent ∧ ∃ n ≤ left, Reaches storage target n parent := by
  constructor
  · intro h
    obtain ⟨_ | n, hn, hreach⟩ := h
    · exact absurd hreach hne
    · obtain ⟨-, parent, hparent, hreach⟩ := hreach
      exact ⟨room - 1, by omega, parent, hparent, n, by omega, hreach⟩
  · intro h
    obtain ⟨left, rfl, parent, hparent, n, hn, hreach⟩ := h
    exact ⟨n + 1, by omega, hne, parent, hparent, hreach⟩

/-- **The history has to reach the start of the change list** within the room
the limit leaves. -/
theorem walkHistory_ok_iff (hacyclic : Acyclic storage) {cl : Cl Oid} {tipId : Oid} {maxCommits : ℕ} (room : ℕ)
    {visited : List Oid} {current : Oid} (hvisited : ∀ id ∈ visited, Relation.TransGen (HasParent storage) id current) :
    walkHistory storage cl tipId maxCommits room visited current = .ok () ↔
      ∃ n ≤ room, Reaches storage cl.fromHash n current := by
  fun_induction walkHistory storage cl tipId maxCommits room visited current with
  | case1 room visited => exact ⟨fun _ => ⟨0, Nat.zero_le _, rfl⟩, fun _ => rfl⟩
  | case2 room visited current hne hmem => exact absurd (hvisited current hmem) (hacyclic current)
  | case3 room visited current hne _ hget => simp [exists_reaches_iff hne, firstParent, hget]
  | case4 room visited current hne _ model hget hparents => simp [exists_reaches_iff hne, firstParent, hget, hparents]
  | case5 visited current hne =>
    rw [exists_reaches_iff hne]
    simp
  | case6 visited current hne _ model hget parents hparents room hhead =>
    simp [exists_reaches_iff hne, firstParent, hget, hparents, hhead]
  | case7 visited current hne _ model hget parents hparents room parent hhead ih =>
    have hfirst : firstParent storage current = some parent := by simp [firstParent, hget, hparents, hhead]
    have hstep := hasParent_of_firstParent hfirst
    rw [ih (forall_mem_cons.mpr ⟨.single hstep, fun id hid => (hvisited id hid).tail hstep⟩),
      exists_reaches_iff hne]
    simp [hfirst]

theorem validate_ok_iff (hacyclic : Acyclic storage) {chain : PushChain Oid}
    {cmd : RefCommand Oid} {openCl : Option (Cl Oid)} {maxCommits : ℕ} :
    validate chain cmd storage openCl maxCommits = .ok () ↔
      chain.tip.id = cmd.newId ∧ (∀ commit ∈ chain.orderedCommits.head?, commit.id = chain.tip.id) ∧
        (chain.orderedCommits.map (·.id)).Nodup ∧ Linked chain.base chain.orderedCommits ∧
        chain.orderedCommits.length ≤ maxCommits ∧
        ∀ cl ∈ openCl, ∃ n, Reaches storage cl.fromHash n chain.base ∧
          chain.orderedCommits.length + n ≤ maxCommits := by
  unfold validate
  rw [guard_eq_ok, check_bind_eq_ok, guard_eq_ok, checkIncrement_ok_iff]
  cases openCl with
  | none => simp [and_assoc]
  | some cl =>
    have hwalk : walkHistory storage cl chain.tip.id maxCommits (maxCommits - chain.orderedCommits.length) []
        chain.base = .ok () ↔ _ := walkHistory_ok_iff hacyclic _ (by simp)
    have hroom (hfits : chain.orderedCommits.length ≤ maxCommits) (n : ℕ) :
        n ≤ maxCommits - chain.orderedCommits.length ↔ chain.orderedCommits.length + n ≤ maxCommits := by omega
    simp only [hwalk, not_lt, Option.mem_some_iff, forall_eq']
    rw [and_congr_right fun hfits => exists_congr fun n => by rw [hroom hfits n, and_comm]]
    simp [and_assoc]

/-! ### The whole push -/

theorem junk_eq_nil_iff {packCommitIds : List Oid} :
    junk packCommitIds path = [] ↔ ∀ id ∈ packCommitIds, id ∈ path.map (·.id) := by
  unfold junk
  rw [filter_eq_nil_iff]
  refine forall₂_congr fun id _ => ?_
  simp

/-- What `resolve` has found when it answers a chain: the path through the pack
below the tip, and where it stops. -/
structure Resolved (isProtocolZeroId : Oid → Bool) (cmd : RefCommand Oid) (packCommitIds newCommitIds : List Oid)
    (storage : List (CommitModel Oid)) (maxCommits : ℕ) (chain : PushChain Oid) (path : List (Commit Oid))
    (stop : Option Oid) : Prop where
  target : chain.tip.id ∈ packCommitIds
  single : chain.tip.parentCommitIds.length ≤ 1
  carried : Carried (· ∈ packCommitIds) storage chain.tip path stop
  length : path.length ≤ packCommitIds.length - 1
  affords : Affords cmd newCommitIds chain.tip.id maxCommits 1 1 0 path
  complete : ∀ id ∈ packCommitIds, id ∈ (chain.tip :: path).map (·.id)
  base : resolveBase isProtocolZeroId cmd storage
    (increment newCommitIds chain.tip.id (chain.tip :: path) stop).2 = .ok chain.base
  ordered : chain.orderedCommits = (increment newCommitIds chain.tip.id (chain.tip :: path) stop).1

section Receive

variable {isProtocolZeroId : Oid → Bool} {cmd : RefCommand Oid} {packCommitIds newCommitIds : List Oid}
  {openCl : Option (Cl Oid)} {maxCommits : ℕ}

theorem resolve_ok_iff (hpack : packCommitIds ≠ []) {tip : Commit Oid} {resolution : PushChainResolution Oid} :
    resolve isProtocolZeroId cmd packCommitIds newCommitIds (some tip) storage maxCommits = .ok resolution ↔
      ∃ chain, resolution = .chain chain ∧ chain.tip = tip ∧
        ∃ path stop, Resolved isProtocolZeroId cmd packCommitIds newCommitIds storage maxCommits chain path stop := by
  have hempty : packCommitIds.isEmpty = false := by
    cases packCommitIds with
    | nil => exact absurd rfl hpack
    | cons id ids => rfl
  unfold resolve
  rw [hempty]
  dsimp only
  rw [guard_eq_ok, guard_eq_ok, bind_eq_ok]
  constructor
  · intro h
    obtain ⟨hmem, hmerge, ⟨path, stop⟩, hwalk, h⟩ := h
    obtain ⟨hcarried, hlength, haffords⟩ := (walkPack_ok_iff _).mp hwalk
    cases hjunk : junk packCommitIds (tip :: path) with
    | cons first others => simp [hjunk] at h
    | nil =>
      simp only [hjunk, bind_eq_ok] at h
      obtain ⟨base, hbase, heq⟩ := h
      cases heq
      exact ⟨_, rfl, rfl, path, stop, not_not.mp hmem, not_lt.mp hmerge, hcarried, hlength, haffords,
        junk_eq_nil_iff.mp hjunk, hbase, rfl⟩
  · intro h
    obtain ⟨chain, rfl, rfl, path, stop, hres⟩ := h
    refine ⟨not_not.mpr hres.target, not_lt.mpr hres.single, (path, stop),
      (walkPack_ok_iff _).mpr ⟨hres.carried, hres.length, hres.affords⟩, ?_⟩
    simp only [junk_eq_nil_iff.mpr hres.complete, bind_eq_ok]
    refine ⟨chain.base, hres.base, ?_⟩
    rw [← hres.ordered]

theorem tipCommit_eq_some {tip : Commit Oid} {newId : Oid} :
    tipCommit storage newId = .ok (some tip) ↔ stored storage newId = some tip := by
  unfold tipCommit stored
  cases getCommitByHash storage newId with
  | none => simp
  | some model => cases hconv : commitFromMegaModel model <;> simp [hconv, bind, Except.bind, Except.toOption]

theorem resolve_none_ne_ok (hpack : packCommitIds ≠ []) (resolution : PushChainResolution Oid) :
    resolve isProtocolZeroId cmd packCommitIds newCommitIds none storage maxCommits ≠ .ok resolution := by
  cases packCommitIds with
  | nil => exact absurd rfl hpack
  | cons id ids => simp [resolve]

/-- **An accepted push** is a chain from the stored new tip that `resolve` finds
and `validate` passes. -/
theorem receive_ok_iff (hpack : packCommitIds ≠ []) {resolution : PushChainResolution Oid} :
    receive isProtocolZeroId cmd packCommitIds newCommitIds storage openCl maxCommits = .ok resolution ↔
      ∃ chain, resolution = .chain chain ∧ stored storage cmd.newId = some chain.tip ∧
        (∃ path stop, Resolved isProtocolZeroId cmd packCommitIds newCommitIds storage maxCommits chain path stop) ∧
        validate chain cmd storage openCl maxCommits = .ok () := by
  unfold receive
  rw [bind_eq_ok]
  constructor
  · intro h
    obtain ⟨_ | tip, htip, h⟩ := h
    · obtain ⟨resolved, hres, -⟩ := bind_eq_ok.mp h
      exact absurd hres (resolve_none_ne_ok hpack resolved)
    · obtain ⟨resolved, hres, hvalid⟩ := bind_eq_ok.mp h
      obtain ⟨chain, rfl, rfl, hfound⟩ := (resolve_ok_iff hpack).mp hres
      obtain ⟨hok, heq⟩ := check_bind_eq_ok.mp hvalid
      cases heq
      exact ⟨chain, rfl, tipCommit_eq_some.mp htip, hfound, hok⟩
  · intro h
    obtain ⟨chain, rfl, htip, hfound, hok⟩ := h
    refine ⟨some chain.tip, tipCommit_eq_some.mpr htip, bind_eq_ok.mpr ⟨.chain chain, ?_, ?_⟩⟩
    · exact (resolve_ok_iff hpack).mpr ⟨chain, rfl, rfl, hfound⟩
    · exact check_bind_eq_ok.mpr ⟨hok, rfl⟩

end Receive

end Push
end Mega
