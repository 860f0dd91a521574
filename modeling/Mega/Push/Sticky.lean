/-
# Retrying a rejected push

A rejected push has stored its pack. Sent again, it carries the same commits,
none of them new. The source means the second answer to be a rejection too:
"all rejection rules are derived from this content set, never from transient
newness". That holds but for one kind of push (`KnownBelowNewTip`). The pack is
the chain from the ref's old commit to the new tip and would be accepted as a
whole, but carries commits that were stored before. The first attempt then ends
the increment at the first of those, finds that it does not end at the old
commit, and rejects; the retry takes the whole path and accepts.

For a new branch the base is the end of the increment, wherever that is, so there
the first attempt accepts what the retry accepts.

Key definitions: `packIds`, `newIds`, `KnownBelowNewTip`.
Key theorems: `receive_of_known_tip`, `retry_accepted_iff`, `first_accepted`, `first_rejected`,
`receive_sticky_iff`.
-/
import Mega.Push.Accepted

namespace Mega
namespace Push

open List Fallible

variable {Oid : Type} [DecidableEq Oid] {storage : List (CommitModel Oid)}
variable {chain : List (Commit Oid)}

/-! ### A known tip -/

section KnownTip

variable {isProtocolZeroId : Oid → Bool} {cmd : RefCommand Oid} {packCommitIds newCommitIds : List Oid}
  {openCl : Option (Cl Oid)} {maxCommits : ℕ}

theorem walkPack_of_known_tip {tipId : Oid} (htip : tipId ∉ newCommitIds) (left : ℕ) :
    ∀ (pathLen newLen knownLen : ℕ) (current : Commit Oid),
    walkPack cmd packCommitIds newCommitIds tipId storage maxCommits left pathLen newLen knownLen current =
      walkPack cmd packCommitIds [] tipId storage maxCommits left pathLen newLen knownLen current := by
  induction left with
  | zero =>
    intro pathLen newLen knownLen current
    rw [walkPack, walkPack]
    simp only [htip, not_mem_nil, decide_false, walkBudget, Bool.false_eq_true, if_false]
  | succ left ih =>
    intro pathLen newLen knownLen current
    rw [walkPack, walkPack]
    simp only [htip, not_mem_nil, decide_false, walkBudget, Bool.false_eq_true, if_false, ih]

/-- **If the tip is known, which other commits are new does not matter**: the
retry has the answer of the first attempt. -/
theorem receive_of_known_tip (htip : cmd.newId ∉ newCommitIds) :
    receive isProtocolZeroId cmd packCommitIds newCommitIds storage openCl maxCommits =
      receive isProtocolZeroId cmd packCommitIds [] storage openCl maxCommits := by
  unfold receive
  cases htipCommit : tipCommit storage cmd.newId with
  | error e => rfl
  | ok tip =>
    have hresolve : resolve isProtocolZeroId cmd packCommitIds newCommitIds tip storage maxCommits =
        resolve isProtocolZeroId cmd packCommitIds [] tip storage maxCommits := by
      unfold resolve
      cases tip with
      | none => cases packCommitIds.isEmpty <;> rfl
      | some tip =>
        obtain ⟨-, -, -, -, hid, -⟩ := stored_some (tipCommit_eq_some.mp htipCommit)
        rw [← hid] at htip
        cases packCommitIds.isEmpty with
        | true => rfl
        | false => simp only [walkPack_of_known_tip htip, increment, htip, not_mem_nil, if_false]
    show (resolve isProtocolZeroId cmd packCommitIds newCommitIds tip storage maxCommits >>= fun resolution =>
      validateResolution resolution cmd storage openCl maxCommits) = _
    rw [hresolve]
    rfl

end KnownTip

/-! ### Lines of single parents -/

section Lines

variable {carries : Oid → Prop} {base : Oid}

omit [DecidableEq Oid] in
theorem linked_append {known : Commit Oid} {below : List (Commit Oid)} : ∀ {above : List (Commit Oid)},
    Linked base (above ++ known :: below) ↔ Linked known.id above ∧ Linked base (known :: below)
  | [] => by simp [Linked]
  | commit :: above => by
    have ih : Linked base (above ++ known :: below) ↔ Linked known.id above ∧ Linked base (known :: below) :=
      linked_append
    rw [cons_append, Linked, Linked, ih, and_assoc]
    cases above <;> simp

omit [DecidableEq Oid] in
theorem linked_unique {base' : Oid} : ∀ {commits : List (Commit Oid)}, commits ≠ [] →
    Linked base commits → Linked base' commits → base = base'
  | [], hne, _, _ => absurd rfl hne
  | [_], _, h, h' => by
    have heq := h.1.symm.trans h'.1
    simpa using heq
  | _ :: next :: rest, _, h, h' => linked_unique (cons_ne_nil next rest) h.2 h'.2

/-- A carried path that is linked to the base stops there. -/
theorem stop_of_linked : ∀ {path : List (Commit Oid)} {current : Commit Oid} {stop : Option Oid},
    Carried carries storage current path stop → Linked base (current :: path) → stop = some base
  | [], current, stop, hcarried, hlinked => by
    rw [← hcarried.1, hlinked.1]
    rfl
  | _ :: _, _, _, hcarried, hlinked => stop_of_linked hcarried.2.2.2 hlinked.2

theorem carried_of_linked (hbase : ¬carries base) : ∀ {path : List (Commit Oid)} {current : Commit Oid},
    Linked base (current :: path) →
    (∀ commit ∈ path, carries commit.id ∧ stored storage commit.id = some commit) →
    Carried carries storage current path (some base)
  | [], current, hlinked, _ => by
    refine ⟨by rw [hlinked.1]; rfl, fun id hid => ?_⟩
    obtain rfl : base = id := by simpa using hid
    exact hbase
  | parent :: rest, current, hlinked, hall => by
    obtain ⟨hmem, hstored⟩ := hall parent (by simp)
    refine ⟨by rw [hlinked.1]; rfl, hmem, hstored, carried_of_linked hbase hlinked.2 fun commit hcommit => ?_⟩
    exact hall commit (mem_cons_of_mem _ hcommit)

theorem carried_mem : ∀ {path : List (Commit Oid)} {current : Commit Oid} {stop : Option Oid},
    Carried carries storage current path stop →
    ∀ commit ∈ path, carries commit.id ∧ stored storage commit.id = some commit
  | [], _, _, _ => by simp
  | parent :: rest, current, stop, hcarried => by
    exact forall_mem_cons.mpr ⟨⟨hcarried.2.1, hcarried.2.2.1⟩, carried_mem hcarried.2.2.2⟩

theorem carried_unique : ∀ {path path' : List (Commit Oid)} {current : Commit Oid} {stop stop' : Option Oid},
    Carried carries storage current path stop → Carried carries storage current path' stop' →
    path = path' ∧ stop = stop'
  | [], [], _, _, _, h, h' => ⟨rfl, h.1.symm.trans h'.1⟩
  | [], parent :: _, _, _, _, h, h' => absurd h'.2.1 (h.2 parent.id (h.1.symm.trans h'.1))
  | parent :: _, [], _, _, _, h, h' => absurd h.2.1 (h'.2 parent.id (h'.1.symm.trans h.1))
  | parent :: rest, parent' :: rest', _, _, _, h, h' => by
    obtain rfl := eq_of_stored h.2.2.1 h'.2.2.1 (Option.some.inj (h.1.symm.trans h'.1))
    obtain ⟨rfl, hstop⟩ := carried_unique h.2.2.2 h'.2.2.2
    exact ⟨rfl, hstop⟩

omit [DecidableEq Oid] in
theorem length_of_linked : ∀ {commits : List (Commit Oid)}, Linked base commits →
    ∀ commit ∈ commits, commit.parentCommitIds.length = 1
  | [], _ => by simp
  | _ :: _, hlinked => forall_mem_cons.mpr ⟨by rw [hlinked.1]; rfl, length_of_linked hlinked.2⟩

theorem firstParent_of_stored {commit : Commit Oid} (hstored : stored storage commit.id = some commit) :
    firstParent storage commit.id = commit.parentCommitIds.head? := by
  obtain ⟨model, -, hget, -, -, hparents⟩ := stored_some hstored
  simp [firstParent, hget, hparents]

/-- A stored line of single parents is a first-parent path. -/
theorem firstParents_of_linked : ∀ {commits : List (Commit Oid)}, Linked base commits →
    (∀ commit ∈ commits, stored storage commit.id = some commit) →
    (commits.map (·.id) ++ [base]).IsChain fun child parent => firstParent storage child = some parent
  | [], _, _ => isChain_singleton _
  | commit :: rest, hlinked, hall => by
    have hrest := firstParents_of_linked hlinked.2 fun c hc => hall c (mem_cons_of_mem _ hc)
    have hfirst := firstParent_of_stored (hall commit (by simp))
    rw [hlinked.1] at hfirst
    cases rest with
    | nil => exact isChain_cons_cons.mpr ⟨hfirst, hrest⟩
    | cons next rest => exact isChain_cons_cons.mpr ⟨hfirst, hrest⟩

theorem isChain_of_linked {commits : List (Commit Oid)} (hlinked : Linked base commits)
    (hall : ∀ commit ∈ commits, stored storage commit.id = some commit) :
    (commits.map (·.id) ++ [base]).IsChain (HasParent storage) :=
  (firstParents_of_linked hlinked hall).imp fun _ _ => hasParent_of_firstParent

/-- What the base reaches, the commits above it reach a little later. -/
theorem reaches_of_linked {target : Oid} {n : ℕ} (hreach : Reaches storage target n base) :
    ∀ {commits : List (Commit Oid)}, Linked base commits →
    (∀ commit ∈ commits, stored storage commit.id = some commit) →
    ∃ m ≤ commits.length + n, Reaches storage target m ((commits.head?.map (·.id)).getD base)
  | [], _, _ => ⟨n, by simp, hreach⟩
  | commit :: rest, hlinked, hall => by
    obtain ⟨m, hm, hreach'⟩ := reaches_of_linked hreach hlinked.2 fun c hc => hall c (mem_cons_of_mem _ hc)
    have hfirst := firstParent_of_stored (hall commit (by simp))
    rw [hlinked.1] at hfirst
    by_cases hdone : commit.id = target
    · exact ⟨0, Nat.zero_le _, hdone⟩
    · refine ⟨m + 1, ?_, hdone, _, hfirst, hreach'⟩
      rw [length_cons]
      omega

end Lines

/-! ### Attempt and retry -/

/-- The pack is a stored line of single parents from the new tip down to just
above the base. -/
structure PackLine (packCommitIds : List Oid) (storage : List (CommitModel Oid)) (newId base : Oid)
    (chain : List (Commit Oid)) : Prop where
  head : chain.head?.map (·.id) = some newId
  stored : ∀ commit ∈ chain, stored storage commit.id = some commit
  linked : Linked base chain
  pack : ∀ id, id ∈ packCommitIds ↔ id ∈ chain.map (·.id)

/-- With the history of the change list below `base`, `len` commits stay within
the limit. -/
def HistoryFits (storage : List (CommitModel Oid)) (openCl : Option (Cl Oid)) (maxCommits len : ℕ) (base : Oid) :
    Prop :=
  ∀ cl ∈ openCl, ∃ n, Reaches storage cl.fromHash n base ∧ len + n ≤ maxCommits

section Attempts

variable {isProtocolZeroId : Oid → Bool} {cmd : RefCommand Oid} {packCommitIds newCommitIds : List Oid}
  {openCl : Option (Cl Oid)} {maxCommits : ℕ}

theorem PackLine.nodup {newId base : Oid} (hacyclic : Acyclic storage)
    (h : PackLine packCommitIds storage newId base chain) : (chain.map (·.id)).Nodup ∧ base ∉ packCommitIds := by
  have hnodup := nodup_of_acyclic hacyclic (isChain_of_linked h.linked h.stored)
  obtain ⟨hids, -, hbase⟩ := nodup_append.mp hnodup
  refine ⟨hids, fun hmem => ?_⟩
  exact hbase base ((h.pack base).mp hmem) base (by simp) rfl

theorem PackLine.cons {newId base : Oid} (h : PackLine packCommitIds storage newId base chain) :
    ∃ tip path, chain = tip :: path ∧ tip.id = newId := by
  cases chain with
  | nil => cases h.head
  | cons tip path => exact ⟨tip, path, rfl, by simpa using h.head⟩

/-- The line as `resolve` walks it. -/
theorem PackLine.carried {newId base : Oid} {tip : Commit Oid} {path : List (Commit Oid)}
    (hacyclic : Acyclic storage) (h : PackLine packCommitIds storage newId base (tip :: path)) :
    Carried (· ∈ packCommitIds) storage tip path (some base) ∧ path.length ≤ packCommitIds.length - 1 := by
  obtain ⟨hnodup, hbase⟩ := h.nodup hacyclic
  refine ⟨carried_of_linked hbase h.linked fun commit hcommit => ⟨?_, ?_⟩, ?_⟩
  · exact (h.pack _).mpr (mem_map_of_mem (mem_cons_of_mem _ hcommit))
  · exact h.stored commit (mem_cons_of_mem _ hcommit)
  · have hsub : (tip :: path).map (·.id) ⊆ packCommitIds := fun id hid => (h.pack id).mpr hid
    have hle := (hnodup.subperm hsub).length_le
    rw [length_map, length_cons] at hle
    omega

/-- **A retry is accepted** if its pack is a line down to the base and stays
within the limit. -/
theorem retry_accepted_iff (hacyclic : Acyclic storage) (hpack : packCommitIds ≠ []) :
    (∃ resolution, receive isProtocolZeroId cmd packCommitIds [] storage openCl maxCommits = .ok resolution) ↔
      ∃ chain base, PackLine packCommitIds storage cmd.newId base chain ∧
        resolveBase isProtocolZeroId cmd storage (some base) = .ok base ∧ chain.length ≤ maxCommits ∧
        HistoryFits storage openCl maxCommits chain.length base := by
  constructor
  · intro h
    obtain ⟨resolution, hok⟩ := h
    obtain ⟨pushed, -, htip, ⟨path, stop, hres⟩, hvalid⟩ := (receive_ok_iff hpack).mp hok
    obtain ⟨-, -, -, hlinked, hlen, hhistory⟩ := (validate_ok_iff hacyclic).mp hvalid
    have hordered : pushed.orderedCommits = pushed.tip :: path := hres.ordered
    obtain ⟨-, -, -, -, hid, -⟩ := stored_some htip
    rw [hordered] at hlinked hlen hhistory
    have hstop := stop_of_linked hres.carried hlinked
    have hbase : resolveBase isProtocolZeroId cmd storage stop = .ok pushed.base := hres.base
    rw [hstop] at hbase
    refine ⟨pushed.tip :: path, pushed.base, ⟨?_, ?_, hlinked, fun id => ⟨hres.complete id, ?_⟩⟩, hbase, hlen,
      hhistory⟩
    · rw [List.head?_cons, Option.map_some, hid]
    · intro commit hcommit
      rcases mem_cons.mp hcommit with rfl | hcommit
      · rw [hid]
        exact htip
      · exact (carried_mem hres.carried commit hcommit).2
    · intro hmem
      obtain ⟨commit, hcommit, rfl⟩ := mem_map.mp hmem
      rcases mem_cons.mp hcommit with rfl | hcommit
      · exact hres.target
      · exact (carried_mem hres.carried commit hcommit).1
  · intro h
    obtain ⟨chain, base, hline, hbase, hlen, hhistory⟩ := h
    obtain ⟨tip, path, rfl, hid⟩ := hline.cons
    obtain ⟨hcarried, hpath⟩ := hline.carried hacyclic
    have hsingle := length_of_linked hline.linked
    refine ⟨_, (receive_ok_iff hpack).mpr ⟨⟨base, tip, tip :: path⟩, rfl, ?_, ⟨path, some base, ?_⟩, ?_⟩⟩
    · rw [← hid]
      exact hline.stored tip (by simp)
    · refine ⟨(hline.pack _).mpr (by simp), (hsingle tip (by simp)).le, hcarried, hpath, ?_,
        fun id hmem => (hline.pack id).mp hmem, hbase, rfl⟩
      refine (affords_known_iff not_mem_nil).mpr ⟨fun _ => ?_, fun commit hcommit => ?_⟩
      · rw [length_cons] at hlen
        omega
      · exact (hsingle commit (mem_cons_of_mem _ hcommit)).le
    · refine (validate_ok_iff hacyclic).mpr ⟨hid, by simp, (hline.nodup hacyclic).1, hline.linked, hlen, hhistory⟩

omit [DecidableEq Oid] in
/-- The first element with a property splits a list. -/
theorem findIdx_split {commits : List (Commit Oid)} {p : Commit Oid → Bool} {i : ℕ}
    (h : commits.findIdx? p = some i) : ∃ above known below,
      commits = above ++ known :: below ∧ commits.take i = above ∧ commits[i]? = some known ∧
        p known = true ∧ ∀ commit ∈ above, p commit = false := by
  obtain ⟨hlt, hp, hbefore⟩ := List.findIdx?_eq_some_iff_getElem.mp h
  refine ⟨commits.take i, commits[i], commits.drop (i + 1), ?_, rfl, List.getElem?_eq_getElem hlt, hp, ?_⟩
  · rw [getElem_cons_drop, take_append_drop]
  · intro commit hcommit
    obtain ⟨j, hj, rfl⟩ := mem_take_iff_getElem.mp hcommit
    have hj' : j < i := by omega
    simpa using hbefore j hj'

/-- The increment of a push with a new tip: the whole path, or what is above the
first known commit. -/
theorem increment_of_new_tip {tipId : Oid} (htip : tipId ∈ newCommitIds) (path : List (Commit Oid))
    (stop : Option Oid) :
    ((∀ commit ∈ path, commit.id ∈ newCommitIds) ∧ increment newCommitIds tipId path stop = (path, stop)) ∨
      ∃ above known below, path = above ++ known :: below ∧ (∀ commit ∈ above, commit.id ∈ newCommitIds) ∧
        known.id ∉ newCommitIds ∧ increment newCommitIds tipId path stop = (above, some known.id) := by
  unfold increment
  rw [if_pos htip]
  cases hfind : path.findIdx? fun commit => commit.id ∉ newCommitIds with
  | none =>
    refine .inl ⟨fun commit hcommit => ?_, rfl⟩
    simpa using List.findIdx?_eq_none_iff.mp hfind commit hcommit
  | some i =>
    obtain ⟨above, known, below, hsplit, htake, hget, hknown, habove⟩ := findIdx_split hfind
    refine .inr ⟨above, known, below, hsplit, fun commit hcommit => ?_, by simpa using hknown, ?_⟩
    · simpa using habove commit hcommit
    · simp only [htake, hget, Option.map_some]

/-- What `resolve` finds on a line that fits, for a new tip. -/
theorem PackLine.resolved {tip : Commit Oid} {path : List (Commit Oid)} {base fork base' : Oid}
    {ordered : List (Commit Oid)} (hacyclic : Acyclic storage)
    (hline : PackLine packCommitIds storage cmd.newId base (tip :: path)) (hnew : tip.id ∈ newCommitIds)
    (hlen : (tip :: path).length ≤ maxCommits)
    (hinc : increment newCommitIds tip.id (tip :: path) (some base) = (ordered, some fork))
    (hbase : resolveBase isProtocolZeroId cmd storage (some fork) = .ok base') :
    Resolved isProtocolZeroId cmd packCommitIds newCommitIds storage maxCommits ⟨base', tip, ordered⟩ path
      (some base) := by
  obtain ⟨hcarried, hpath⟩ := hline.carried hacyclic
  have hsingle := length_of_linked hline.linked
  rw [length_cons] at hlen
  refine ⟨(hline.pack _).mpr (by simp), (hsingle tip (by simp)).le, hcarried, hpath, ?_,
    fun id hmem => (hline.pack id).mp hmem, by rw [hinc]; exact hbase, by rw [hinc]⟩
  exact affords_new hnew (fun commit hcommit => (hsingle commit (mem_cons_of_mem _ hcommit)).le) (by omega)
    (by omega)

/-- On a new branch the first attempt accepts what the retry accepts: it ends the
increment at a known commit, and the rest of the line counts as history. -/
theorem first_accepted (hacyclic : Acyclic storage) {base : Oid}
    (hline : PackLine packCommitIds storage cmd.newId base chain)
    (hbase : resolveBase isProtocolZeroId cmd storage (some base) = .ok base) (hlen : chain.length ≤ maxCommits)
    (hhistory : HistoryFits storage openCl maxCommits chain.length base) (hnew : cmd.newId ∈ newCommitIds)
    (h : isProtocolZeroId cmd.oldId = true ∨ ∀ id ∈ packCommitIds, id ∈ newCommitIds) :
    ∃ resolution, receive isProtocolZeroId cmd packCommitIds newCommitIds storage openCl maxCommits =
      .ok resolution := by
  obtain ⟨tip, path, rfl, hid⟩ := hline.cons
  obtain ⟨hnodup, -⟩ := hline.nodup hacyclic
  have hpack : packCommitIds ≠ [] := ne_nil_of_mem ((hline.pack tip.id).mpr (by simp))
  have htip : stored storage cmd.newId = some tip := by
    rw [← hid]
    exact hline.stored tip (by simp)
  rw [← hid] at hnew
  rcases increment_of_new_tip hnew (tip :: path) (some base) with ⟨-, hinc⟩ |
    ⟨above, known, below, hsplit, -, hknown, hinc⟩
  · refine ⟨_, (receive_ok_iff hpack).mpr ⟨⟨base, tip, tip :: path⟩, rfl, htip,
      ⟨path, some base, hline.resolved hacyclic hnew hlen hinc hbase⟩, ?_⟩⟩
    exact (validate_ok_iff hacyclic).mpr ⟨hid, by simp, hnodup, hline.linked, hlen, hhistory⟩
  · have hmem : known ∈ tip :: path := by rw [hsplit]; simp
    have hzero : isProtocolZeroId cmd.oldId = true := by
      refine h.resolve_right fun hall => hknown (hall _ ((hline.pack _).mpr ?_))
      exact mem_map_of_mem hmem
    have hfork : resolveBase isProtocolZeroId cmd storage (some known.id) = .ok known.id := by
      obtain ⟨model, -, hget, -⟩ := stored_some (hline.stored known hmem)
      simp [resolveBase, hzero, hget]
    have hlinked := hline.linked
    rw [hsplit, linked_append] at hlinked
    have hlength : (tip :: path).length = above.length + (known :: below).length := by
      rw [hsplit, length_append]
    refine ⟨_, (receive_ok_iff hpack).mpr ⟨⟨known.id, tip, above⟩, rfl, htip,
      ⟨path, some base, hline.resolved hacyclic hnew hlen hinc hfork⟩, ?_⟩⟩
    refine (validate_ok_iff hacyclic).mpr ⟨hid, fun commit hcommit => ?_, ?_, hlinked.1, ?_, fun cl hcl => ?_⟩
    · cases above with
      | nil => cases hcommit
      | cons first above =>
        obtain rfl : first = commit := by simpa using hcommit
        rw [(List.cons.inj hsplit).1]
    · rw [hsplit, map_append] at hnodup
      exact (nodup_append.mp hnodup).1
    · show above.length ≤ maxCommits
      omega
    · obtain ⟨n, hreach, hn⟩ := hhistory cl hcl
      obtain ⟨m, hm, hreach'⟩ := reaches_of_linked hreach hlinked.2 fun commit hcommit =>
        hline.stored commit (by rw [hsplit]; exact mem_append_right _ hcommit)
      refine ⟨m, hreach', ?_⟩
      show above.length + m ≤ maxCommits
      omega

/-- With an old commit to reach, a known commit in the pack ends the increment
too early. -/
theorem first_rejected (hacyclic : Acyclic storage)
    (hline : PackLine packCommitIds storage cmd.newId cmd.oldId chain) (hnew : cmd.newId ∈ newCommitIds)
    (hold : isProtocolZeroId cmd.oldId = false) (hknown : ∃ id ∈ packCommitIds, id ∉ newCommitIds)
    (resolution : PushChainResolution Oid) :
    receive isProtocolZeroId cmd packCommitIds newCommitIds storage openCl maxCommits ≠ .ok resolution := by
  intro hok
  obtain ⟨tip, path, rfl, hid⟩ := hline.cons
  obtain ⟨hcarried, -⟩ := hline.carried hacyclic
  have hpack : packCommitIds ≠ [] := ne_nil_of_mem ((hline.pack tip.id).mpr (by simp))
  obtain ⟨pushed, -, htip, ⟨path', stop', hres⟩, hvalid⟩ := (receive_ok_iff hpack).mp hok
  obtain ⟨-, -, -, hlinked, -⟩ := (validate_ok_iff hacyclic).mp hvalid
  rw [← hid] at hnew htip
  obtain rfl : pushed.tip = tip := Option.some.inj (htip.symm.trans (hline.stored tip (by simp)))
  obtain ⟨rfl, rfl⟩ := carried_unique hres.carried hcarried
  have hbase : cmd.oldId = pushed.base := by
    simpa [resolveBase, hold] using hres.base
  rcases increment_of_new_tip hnew (pushed.tip :: path') (some cmd.oldId) with ⟨hall, -⟩ |
    ⟨above, known, below, hsplit, -, hknownId, hinc⟩
  · obtain ⟨id, hmem, hidKnown⟩ := hknown
    obtain ⟨commit, hcommit, rfl⟩ := mem_map.mp ((hline.pack id).mp hmem)
    exact hidKnown (hall commit hcommit)
  · -- the increment is linked to the known commit, so that would be the old one
    rw [hres.ordered, hinc, ← hbase] at hlinked
    have habove : above ≠ [] := by
      rintro rfl
      obtain rfl : pushed.tip = known := (List.cons.inj hsplit).1
      exact hknownId hnew
    have hline' := hline.linked
    rw [hsplit] at hline'
    have hend := linked_unique habove hlinked (linked_append.mp hline').1
    refine (hline.nodup hacyclic).2 ((hline.pack cmd.oldId).mpr ?_)
    rw [hsplit, hend]
    simp

end Attempts

/-! ### Stickiness -/

/-- The ids of the pack's commits, as a set. -/
def packIds (pack : List (CommitModel Oid)) : List Oid := (pack.map (·.commitId)).dedup

/-- The pack's commits that the storage does not have yet. -/
def newIds (storage pack : List (CommitModel Oid)) : List Oid :=
  (packIds pack).filter fun id => id ∉ storage.map (·.commitId)

/-- The new tip is not stored, the pack has commits that are, and is as a whole
the chain from the ref's old commit to the tip, within the limits. -/
def KnownBelowNewTip (isProtocolZeroId : Oid → Bool) (cmd : RefCommand Oid) (storage pack : List (CommitModel Oid))
    (openCl : Option (Cl Oid)) (maxCommits : ℕ) : Prop :=
  isProtocolZeroId cmd.oldId = false ∧ cmd.newId ∉ storage.map (·.commitId) ∧
    (∃ id ∈ packIds pack, id ∈ storage.map (·.commitId)) ∧
    ∃ chain, PackLine (packIds pack) (storage ++ pack) cmd.newId cmd.oldId chain ∧ chain.length ≤ maxCommits ∧
      HistoryFits (storage ++ pack) openCl maxCommits chain.length cmd.oldId

theorem isOk_eq_false_iff {ε α : Type} {x : Except ε α} : x.isOk = false ↔ ∀ a, x ≠ .ok a := by
  cases x with
  | error e => simp [Except.isOk, Except.toBool]
  | ok a => simp [Except.isOk, Except.toBool]

/-- **When rejections are sticky.** If the first attempt of a push is rejected,
so is the retry after its pack has been stored, exactly unless the pack is an
acceptable chain above the ref's old commit that carries known commits below a
new tip. -/
theorem receive_sticky_iff (isProtocolZeroId : Oid → Bool) (cmd : RefCommand Oid)
    (storage pack : List (CommitModel Oid)) (openCl : Option (Cl Oid)) (maxCommits : ℕ)
    (hacyclic : Acyclic (storage ++ pack)) :
    ((receive isProtocolZeroId cmd (packIds pack) (newIds storage pack) (storage ++ pack) openCl
          maxCommits).isOk = false →
        (receive isProtocolZeroId cmd (packIds pack) [] (storage ++ pack) openCl maxCommits).isOk = false) ↔
      ¬KnownBelowNewTip isProtocolZeroId cmd storage pack openCl maxCommits := by
  simp only [isOk_eq_false_iff]
  constructor
  · intro hsticky hcond
    obtain ⟨hold, hnot, ⟨id, hmem, hid⟩, chain, hline, hlen, hhistory⟩ := hcond
    have hhead : cmd.newId ∈ packIds pack := by
      obtain ⟨tip, path, rfl, htip⟩ := hline.cons
      exact (hline.pack _).mpr (by simp [htip])
    have hnew : cmd.newId ∈ newIds storage pack := mem_filter.mpr ⟨hhead, by simpa using hnot⟩
    have hknown : ∃ id ∈ packIds pack, id ∉ newIds storage pack := by
      refine ⟨id, hmem, fun h => ?_⟩
      have := (mem_filter.mp h).2
      simp only [decide_eq_true_eq] at this
      exact this hid
    have hbase : resolveBase isProtocolZeroId cmd (storage ++ pack) (some cmd.oldId) = .ok cmd.oldId := by
      simp [resolveBase, hold]
    have hretry := (retry_accepted_iff hacyclic (ne_nil_of_mem hhead)).mpr
      ⟨chain, cmd.oldId, hline, hbase, hlen, hhistory⟩
    obtain ⟨resolution, hok⟩ := hretry
    exact hsticky (fun r => first_rejected hacyclic hline hnew hold hknown r) resolution hok
  · intro hcond hfirst resolution hok
    by_cases hnew : cmd.newId ∈ newIds storage pack
    · obtain ⟨hhead, hnot⟩ := mem_filter.mp hnew
      simp only [decide_eq_true_eq] at hnot
      obtain ⟨chain, base, hline, hbase, hlen, hhistory⟩ :=
        (retry_accepted_iff hacyclic (ne_nil_of_mem hhead)).mp ⟨resolution, hok⟩
      by_cases h : isProtocolZeroId cmd.oldId = true ∨ ∀ id ∈ packIds pack, id ∈ newIds storage pack
      · obtain ⟨resolution', hok'⟩ := first_accepted hacyclic hline hbase hlen hhistory hnew h
        exact hfirst resolution' hok'
      · obtain ⟨hzero, hknown⟩ := not_or.mp h
        have hold := Bool.eq_false_iff.mpr hzero
        obtain rfl : cmd.oldId = base := by simpa [resolveBase, hold] using hbase
        push Not at hknown
        obtain ⟨id, hmem, hid⟩ := hknown
        refine hcond ⟨hold, hnot, ⟨id, hmem, ?_⟩, chain, hline, hlen, hhistory⟩
        by_contra hnotStored
        exact hid (mem_filter.mpr ⟨hmem, by simpa using hnotStored⟩)
    · rw [receive_of_known_tip hnew] at hfirst
      exact hfirst resolution hok

omit [DecidableEq Oid] in
/-- Parents of smaller rank. -/
theorem acyclic_of_rank {storage : List (CommitModel Oid)} (rank : Oid → ℕ)
    (h : ∀ model ∈ storage, ∀ parents ∈ model.parentsId, ∀ parent ∈ parents, rank parent < rank model.commitId) :
    Acyclic storage := by
  have hstep : ∀ child parent, HasParent storage child parent → rank parent < rank child := by
    intro child parent hparent
    obtain ⟨model, hmem, rfl, parents, hparents, hin⟩ := hparent
    exact h model hmem parents hparents parent hin
  have htrans : ∀ {a b}, Relation.TransGen (HasParent storage) a b → rank b < rank a := by
    intro a b hab
    induction hab with
    | single hab => exact hstep _ _ hab
    | tail _ hbc ih => exact (hstep _ _ hbc).trans ih
  exact fun id hid => Nat.lt_irrefl _ (htrans hid)

/-- Commit 2 on commit 1, both stored. -/
def storedPair : List (CommitModel ℕ) := [⟨1, some [], true⟩, ⟨2, some [1], true⟩]

/-- The new commit 3 and, once more, its parent 2. -/
def packWithParent : List (CommitModel ℕ) := [⟨2, some [1], true⟩, ⟨3, some [2], true⟩]

/-- Moves the ref from commit 1 to commit 3. -/
def moveToThree : RefCommand ℕ := ⟨"refs/heads/main", 1, 3⟩

theorem acyclic_packWithParent : Acyclic (storedPair ++ packWithParent) :=
  acyclic_of_rank id (by decide)

theorem receive_sticky_iff_packWithParent :
    Acyclic (storedPair ++ packWithParent) ∧
      (((receive (· == 0) moveToThree (packIds packWithParent) (newIds storedPair packWithParent)
          (storedPair ++ packWithParent) none 250).isOk = false →
        (receive (· == 0) moveToThree (packIds packWithParent) [] (storedPair ++ packWithParent) none
          250).isOk = false) ↔
        ¬KnownBelowNewTip (· == 0) moveToThree storedPair packWithParent none 250) :=
  ⟨acyclic_packWithParent,
    receive_sticky_iff (· == 0) moveToThree storedPair packWithParent none 250 acyclic_packWithParent⟩

/-- The push of commit 3 together with its known parent 2 onto commit 1 is
rejected, and accepted when it is sent again. -/
theorem receive_not_sticky_packWithParent :
    Acyclic (storedPair ++ packWithParent) ∧
      receive (· == 0) moveToThree (packIds packWithParent) (newIds storedPair packWithParent)
        (storedPair ++ packWithParent) none 250 = .error (.baseNotOnChain 1 3) ∧
      receive (· == 0) moveToThree (packIds packWithParent) [] (storedPair ++ packWithParent) none 250 =
        .ok (.chain ⟨1, ⟨3, [2]⟩, [⟨3, [2]⟩, ⟨2, [1]⟩]⟩) :=
  ⟨acyclic_packWithParent, rfl, rfl⟩

end Push
end Mega
