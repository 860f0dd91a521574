/-
# A push whose pack cannot be stored

`git_receive_pack_stream` checks the commands of a push, stores its pack, writes
the refs and reports on each command. A branch is written by
`finalize_receive_pack`, which is not called if the pack was not stored. A tag
is written in the loop before that, by the repository's `update_refs`, and this
loop looks at the result of the storing for branches only. A tag command that
the repository would accept is therefore carried out and reported as `ok` even
though the pack that should bring its object is lost.

The refs of one repository are its rows of `import_refs`. What the handler does
with the pack and with branches is a parameter.

Key definitions: `RefCommand`, `updateTag`, `markCommands`, `gitReceivePackStream`.
Key theorem: `failed_unpack_iff`.
-/
import Mega.View.Filter

namespace Mega
namespace ReceivePack

open List View

/-! ### Commands -/

inductive CommandType where
  | create
  | delete
  | update
deriving DecidableEq

inductive RefTypeEnum where
  | branch
  | tag
deriving DecidableEq

inductive Status where
  | ok
  | ng
deriving DecidableEq

structure RefCommand where
  refName : Text
  oldId : Text
  newId : Text
  status : Status
  errorMsg : Text
  commandType : CommandType
  refType : RefTypeEnum
  defaultBranch : Bool
deriving DecidableEq

def isProtocolZeroId (oid : Text) : Bool :=
  (utf8Len oid == 40 || utf8Len oid == 64) && oid.all (· == '0')

def RefCommand.new (oldId newId refName : Text) : RefCommand where
  refName := refName
  oldId := oldId
  newId := newId
  status := .ok
  errorMsg := []
  commandType :=
    if isProtocolZeroId oldId then .create else if isProtocolZeroId newId then .delete else .update
  refType := if "refs/tags".toList.isPrefixOf refName then .tag else .branch
  defaultBranch := false

def RefCommand.failed (command : RefCommand) (msg : Text) : RefCommand :=
  { command with status := .ng, errorMsg := msg }

def RefCommand.getStatus (command : RefCommand) : Text :=
  match command.status with
  | .ok => "ok ".toList ++ command.refName
  | .ng => "ng ".toList ++ command.refName ++ ' ' :: command.errorMsg

/-! ### The guards -/

def megaBranchName : Text := "refs/heads/main".toList

def deleteMainNg : Text :=
  "refusing to delete the main branch ref `refs/heads/main`: the authorization snapshot is keyed on ".toList ++
    "main's `/.mega_cedar.json`; use the Web UI / API to manage the default branch".toList

def monorepoTagNg : Text := "tag pushes are not supported on monorepo; manage tags through the tag API".toList

def monorepoExtraBranchNg : Text := "monorepo pushes support at most one branch update".toList

def rejectMonorepoDisallowedCommands (isMonorepo : Bool) (commands : List RefCommand) : List RefCommand :=
  if isMonorepo then
    commands.map fun command =>
      if command.status ≠ .ok then command
      else if command.commandType = .delete ∧ command.refName = megaBranchName then command.failed deleteMainNg
      else if command.refType = .tag then command.failed monorepoTagNg
      else command
  else commands

def rejectPacklessMissingTargets (commitExists objectExists : Text → Bool) (commands : List RefCommand) :
    List RefCommand :=
  commands.map fun command =>
    if command.status ≠ .ok ∨ command.commandType = .delete then command
    else if (match command.refType with
        | .branch => commitExists command.newId
        | .tag => objectExists command.newId) then command
    else command.failed ("target object ".toList ++ command.newId ++ " not found".toList)

/-- The loop of `reject_extra_monorepo_branch_updates`, with its flag. -/
def rejectExtraBranchUpdates : Bool → List RefCommand → List RefCommand
  | _, [] => []
  | survivingBranchUpdate, command :: rest =>
    if command.refType = .branch ∧ command.status = .ok ∧ command.commandType ≠ .delete ∧
        isProtocolZeroId command.newId = false then
      (if survivingBranchUpdate then command.failed monorepoExtraBranchNg else command) ::
        rejectExtraBranchUpdates true rest
    else command :: rejectExtraBranchUpdates survivingBranchUpdate rest

def rejectExtraMonorepoBranchUpdates (isMonorepo : Bool) (commands : List RefCommand) : List RefCommand :=
  if isMonorepo then rejectExtraBranchUpdates false commands else commands

/-! ### The repository -/

/-- A row of `import_refs`. -/
structure Ref where
  refName : Text
  refGitId : Text
  defaultBranch : Bool
deriving DecidableEq

inductive Repository where
  | monorepo
  /-- `live` is what `lock_live_import_repo` answers -/
  | importRepo (live : Except Text Unit)
  | view
  | traces

def Repository.isMonorepo : Repository → Bool
  | .monorepo => true
  | .importRepo _ => false
  | .view => true
  | .traces => false

/-- `write_tag_ref_in_txn` behind the lock: the rows after the write, if it applies. -/
def writeTagRef (command : RefCommand) (refs : List Ref) : Option (List Ref) :=
  match command.commandType with
  | .create =>
    if refs.any (fun ref => ref.refName == command.refName) then none
    else some (refs ++ [⟨command.refName, command.newId, command.defaultBranch⟩])
  | .delete =>
    if refs.any (fun ref => ref.refName == command.refName && ref.refGitId == command.oldId) then
      some (refs.filter fun ref => !(ref.refName == command.refName && ref.refGitId == command.oldId))
    else none
  | .update =>
    if refs.any (fun ref => ref.refName == command.refName && ref.refGitId == command.oldId) then
      some (refs.map fun ref =>
        if ref.refName == command.refName && ref.refGitId == command.oldId then { ref with refGitId := command.newId }
        else ref)
    else none

/-- What a request asks of its repository. -/
structure RepoHandler where
  repository : Repository
  /-- the channels of the decoder, or why there are none -/
  unpackStream : Except Text Unit
  /-- whether every entry of the pack was saved -/
  receiverHandler : Except Text Unit
  checkCommitExist : Text → Bool
  checkObjectExist : Text → Bool
  checkDefaultBranch : List Ref → Bool
  finalizeReceivePack : List RefCommand → List Ref → Except Text (List Ref)
  receivePackNotice : Option Text
  /-- the text of `ImportRepoError::StaleRef` -/
  staleRef : Text → Text → Text

/-- `update_refs` on a tag. -/
def RepoHandler.updateTag (handler : RepoHandler) (command : RefCommand) (refs : List Ref) : Except Text (List Ref) :=
  match handler.repository with
  | .monorepo =>
    .error "Monorepo rejects Git-client tag create/update/delete; use Web UI or /tags API".toList
  | .importRepo live =>
    match live with
    | .error e => .error e
    | .ok () =>
      match writeTagRef command refs with
      | some refs' => .ok refs'
      | none => .error (handler.staleRef command.refName command.oldId)
  | .view => .error "view URLs are read-only".toList
  | .traces => .error "trace repository does not write code objects".toList

def applyReceivePackStatusGuards (handler : RepoHandler) (packLess : Bool) (commands : List RefCommand) :
    List RefCommand :=
  let isMonorepo := handler.repository.isMonorepo
  let commands := rejectMonorepoDisallowedCommands isMonorepo commands
  let commands :=
    if packLess then rejectPacklessMissingTargets handler.checkCommitExist handler.checkObjectExist commands
    else commands
  rejectExtraMonorepoBranchUpdates isMonorepo commands

/-! ### The request -/

/-- The body of the loop that writes tags and marks branches: the command, the
default branch flag and the refs after it. -/
def markCommand (handler : RepoHandler) (unpackResult : Except Text Unit) (defaultExist : Bool) (refs : List Ref)
    (command : RefCommand) : RefCommand × Bool × List Ref :=
  match command.refType, command.status, unpackResult with
  | _, .ng, _ => (command, defaultExist, refs)
  | .tag, .ok, _ =>
    match handler.updateTag command refs with
    | .error e => (command.failed e, defaultExist, refs)
    | .ok refs => (command, defaultExist, refs)
  | .branch, .ok, .ok () =>
    if defaultExist then (command, true, refs) else ({ command with defaultBranch := true }, true, refs)
  | .branch, .ok, .error e => (command.failed e, defaultExist, refs)

def markCommands (handler : RepoHandler) (unpackResult : Except Text Unit) :
    Bool → List Ref → List RefCommand → List RefCommand × List Ref
  | _, refs, [] => ([], refs)
  | defaultExist, refs, command :: rest =>
    let (command, defaultExist, refs) := markCommand handler unpackResult defaultExist refs command
    let (rest, refs) := markCommands handler unpackResult defaultExist refs rest
    (command :: rest, refs)

def hasSuccessfulBranchWork (commands : List RefCommand) : Bool :=
  commands.any fun command => command.refType == .branch && command.status == .ok

/-- What the client is told: the lines of `report-status` and the notice. -/
structure Report where
  lines : List Text
  notice : Option Text
deriving DecidableEq

def reportOn (commands : List RefCommand) (notice : Option Text) : Report :=
  ⟨"unpack ok\n".toList :: commands.map RefCommand.getStatus, notice⟩

def gitReceivePackStream (handler : RepoHandler) (commands : List RefCommand) (packLess : Bool) (refs : List Ref) :
    Except Text Report × List Ref :=
  let commands := applyReceivePackStatusGuards handler packLess commands
  match (if packLess then .ok () else handler.unpackStream) with
  | .error e => (.error e, refs)
  | .ok () =>
    let unpackResult := if packLess then .ok () else handler.receiverHandler
    let (commands, refs) := markCommands handler unpackResult (handler.checkDefaultBranch refs) refs commands
    let unpackFailed := !unpackResult.isOk && commands.any fun command => command.refType == .branch
    if !unpackFailed && hasSuccessfulBranchWork commands then
      match handler.finalizeReceivePack commands refs with
      | .error msg =>
        (.ok (reportOn (commands.map fun command =>
          if command.refType = .branch ∧ command.status = .ok then command.failed msg else command) none), refs)
      | .ok refs => (.ok (reportOn commands handler.receivePackNotice), refs)
    else (.ok (reportOn commands none), refs)

/-! ### The failed unpack -/

/-- The pack could not be stored: its stream was not opened, or an entry was not saved. -/
def RepoHandler.StoreFails (handler : RepoHandler) : Prop :=
  (∃ e, handler.unpackStream = .error e) ∨ ∃ e, handler.receiverHandler = .error e

/-- Each name has its line, and the line says `ng`. -/
def AllNg (names lines : List Text) : Prop :=
  List.Forall₂ (fun name line => ∃ msg, line = "ng ".toList ++ name ++ ' ' :: msg) names lines

theorem AllNg.mem {names lines : List Text} (h : AllNg names lines) :
    ∀ line ∈ lines, ∃ name msg, line = "ng ".toList ++ name ++ ' ' :: msg := by
  induction h with
  | nil => simp
  | cons hline _ ih => exact forall_mem_cons.mpr ⟨⟨_, hline⟩, ih⟩

/-- A command that the loop may carry out. -/
def Live (handler : RepoHandler) (refs : List Ref) (command : RefCommand) : Prop :=
  command.refType = .tag ∧ command.status = .ok ∧ ∃ refs', handler.updateTag command refs = .ok refs'

section Loop

variable (handler : RepoHandler) {e : Text}

theorem not_ng_of_ok {command : RefCommand} (h : command.status = .ok) (name msg : Text) :
    command.getStatus ≠ "ng ".toList ++ name ++ ' ' :: msg := by
  simp [RefCommand.getStatus, h]

/-- A command that is not carried out is marked and leaves the refs. -/
theorem markCommand_refused (defaultExist : Bool) {refs : List Ref} {command : RefCommand}
    (h : ¬ Live handler refs command) :
    ∃ marked, markCommand handler (.error e) defaultExist refs command = (marked, defaultExist, refs) ∧
      ∃ msg, marked.getStatus = "ng ".toList ++ command.refName ++ ' ' :: msg := by
  unfold markCommand
  cases hstatus : command.status with
  | ng => exact ⟨command, rfl, command.errorMsg, by simp [RefCommand.getStatus, hstatus]⟩
  | ok =>
    cases htype : command.refType with
    | branch => exact ⟨_, rfl, e, rfl⟩
    | tag =>
      cases hupdate : handler.updateTag command refs with
      | error msg => exact ⟨_, rfl, msg, rfl⟩
      | ok refs' => exact absurd ⟨htype, hstatus, refs', hupdate⟩ h

/-- Where no tag is accepted, the loop leaves the refs and marks every command. -/
theorem markCommands_refused (refs : List Ref) (defaultExist : Bool) : ∀ commands : List RefCommand,
    (∀ command ∈ commands, ¬ Live handler refs command) →
    (markCommands handler (.error e) defaultExist refs commands).2 = refs ∧
      AllNg (commands.map (·.refName))
        ((markCommands handler (.error e) defaultExist refs commands).1.map RefCommand.getStatus)
  | [], _ => ⟨rfl, .nil⟩
  | command :: rest, h => by
    obtain ⟨marked, hmark, hline⟩ := markCommand_refused handler (e := e) defaultExist (h command mem_cons_self)
    obtain ⟨hrefs, hng⟩ := markCommands_refused refs defaultExist rest fun c hc => h c (mem_cons_of_mem _ hc)
    rw [markCommands, hmark]
    exact ⟨hrefs, .cons hline hng⟩

/-- The first tag that is accepted is reported as `ok`. -/
theorem markCommands_accepted (refs : List Ref) (defaultExist : Bool) : ∀ commands : List RefCommand,
    (∃ command ∈ commands, Live handler refs command) →
    ∃ marked ∈ (markCommands handler (.error e) defaultExist refs commands).1, marked.status = .ok
  | [], h => by simp at h
  | command :: rest, h => by
    by_cases hhead : Live handler refs command
    · obtain ⟨htag, hstatus, refs', hupdate⟩ := hhead
      refine ⟨command, ?_, hstatus⟩
      simp [markCommands, markCommand, htag, hstatus, hupdate]
    · obtain ⟨first, hmark, -⟩ := markCommand_refused handler (e := e) defaultExist hhead
      obtain ⟨c, hc, hlive⟩ := h
      rcases mem_cons.mp hc with rfl | hc
      · exact absurd hlive hhead
      · obtain ⟨marked, hmem, hok⟩ := markCommands_accepted refs defaultExist rest ⟨c, hc, hlive⟩
        rw [markCommands, hmark]
        exact ⟨marked, mem_cons_of_mem _ hmem, hok⟩

theorem map_refName_extra (cs : List RefCommand) : ∀ flag : Bool,
    (rejectExtraBranchUpdates flag cs).map (·.refName) = cs.map (·.refName) := by
  induction cs with
  | nil => exact fun _ => rfl
  | cons command rest ih =>
    intro flag
    rw [rejectExtraBranchUpdates]
    split
    · rw [map_cons, map_cons, ih]
      split <;> rfl
    · rw [map_cons, map_cons, ih]

theorem map_refName_disallowed (isMonorepo : Bool) (cs : List RefCommand) :
    (rejectMonorepoDisallowedCommands isMonorepo cs).map (·.refName) = cs.map (·.refName) := by
  unfold rejectMonorepoDisallowedCommands
  split
  · rw [map_map]
    refine map_congr_left fun command _ => ?_
    simp only [Function.comp_apply]
    split_ifs <;> rfl
  · rfl

/-- The guards keep the commands and their names. -/
theorem map_refName_guards (commands : List RefCommand) :
    (applyReceivePackStatusGuards handler false commands).map (·.refName) = commands.map (·.refName) := by
  simp only [applyReceivePackStatusGuards, rejectExtraMonorepoBranchUpdates, Bool.false_eq_true, if_false]
  split
  · rw [map_refName_extra, map_refName_disallowed]
  · rw [map_refName_disallowed]

/-- A request whose entries were not saved does not reach the branches. -/
theorem gitReceivePackStream_failed (commands : List RefCommand) (refs : List Ref)
    (hopen : handler.unpackStream = .ok ()) (hfail : handler.receiverHandler = .error e) :
    gitReceivePackStream handler commands false refs =
      (.ok (reportOn (markCommands handler (.error e) (handler.checkDefaultBranch refs) refs
        (applyReceivePackStatusGuards handler false commands)).1 none),
      (markCommands handler (.error e) (handler.checkDefaultBranch refs) refs
        (applyReceivePackStatusGuards handler false commands)).2) := by
  unfold gitReceivePackStream
  simp only [Bool.false_eq_true, if_false, hopen, hfail]
  rw [if_neg]
  intro hwork
  simp only [Except.isOk, Except.toBool, Bool.not_false, Bool.true_and, Bool.and_eq_true, Bool.not_eq_true',
    any_eq_false, hasSuccessfulBranchWork, any_eq_true] at hwork
  obtain ⟨hnone, command, hmem, hbranch, -⟩ := hwork
  exact hnone command hmem hbranch

end Loop

/-- **What a failed unpack leaves behind.** If the pack of a push cannot be
stored, the refs stay as they were and every command is reported as `ng` if and
only if the stream of the pack was opened and the repository refuses each tag
command that the guards let pass. -/
theorem failed_unpack_iff (handler : RepoHandler) (commands : List RefCommand) (refs : List Ref)
    (hfail : handler.StoreFails) :
    ((gitReceivePackStream handler commands false refs).2 = refs ∧
      ∃ report, (gitReceivePackStream handler commands false refs).1 = .ok report ∧
        AllNg (commands.map (·.refName)) report.lines.tail) ↔
    (handler.unpackStream = .ok () ∧
      ∀ command ∈ applyReceivePackStatusGuards handler false commands, command.refType = .tag →
        command.status = .ok → ∃ msg, handler.updateTag command refs = .error msg) := by
  cases hopen : handler.unpackStream with
  | error msg => simp [gitReceivePackStream, hopen]
  | ok u =>
    obtain ⟨e, herror⟩ : ∃ e, handler.receiverHandler = .error e := by
      rcases hfail with ⟨msg, hmsg⟩ | hfail
      · rw [hopen] at hmsg
        cases hmsg
      · exact hfail
    rw [gitReceivePackStream_failed handler commands refs hopen herror]
    constructor
    · rintro ⟨-, report, hreport, hng⟩
      obtain rfl := Except.ok.inj hreport
      refine ⟨rfl, fun command hmem htag hstatus => ?_⟩
      cases hupdate : handler.updateTag command refs with
      | error msg => exact ⟨msg, rfl⟩
      | ok refs' =>
        obtain ⟨marked, hmarked, hok⟩ := markCommands_accepted handler (e := e) refs (handler.checkDefaultBranch refs) _
          ⟨command, hmem, htag, hstatus, refs', hupdate⟩
        obtain ⟨name, msg, hline⟩ := hng.mem _ (mem_map_of_mem hmarked)
        exact absurd hline (not_ng_of_ok hok name msg)
    · rintro ⟨-, hrefused⟩
      obtain ⟨hrefs, hng⟩ := markCommands_refused handler (e := e) refs (handler.checkDefaultBranch refs)
        (applyReceivePackStatusGuards handler false commands) fun command hmem hlive => by
          obtain ⟨htag, hstatus, refs', hupdate⟩ := hlive
          obtain ⟨msg, hmsg⟩ := hrefused command hmem htag hstatus
          rw [hupdate] at hmsg
          cases hmsg
      rw [map_refName_guards] at hng
      exact ⟨hrefs, _, rfl, hng⟩

/-- An import repository that could not save the entries of a pack. -/
def lostPack : RepoHandler where
  repository := .importRepo (.ok ())
  unpackStream := .ok ()
  receiverHandler := .error "disk full".toList
  checkCommitExist _ := false
  checkObjectExist _ := false
  checkDefaultBranch _ := true
  finalizeReceivePack _ refs := .ok refs
  receivePackNotice := none
  staleRef _ _ := []

/-- The ref is created. -/
def createRef (refName : Text) : RefCommand := .new (List.replicate 40 '0') (List.replicate 40 'a') refName

theorem failed_unpack_iff_branch : lostPack.StoreFails ∧
    (gitReceivePackStream lostPack [createRef "refs/heads/main".toList] false []).2 = [] ∧
      ∃ report, (gitReceivePackStream lostPack [createRef "refs/heads/main".toList] false []).1 = .ok report ∧
        AllNg ["refs/heads/main".toList] report.lines.tail := by
  have hfail : lostPack.StoreFails := .inr ⟨_, rfl⟩
  have hbranch : ∀ command ∈ applyReceivePackStatusGuards lostPack false [createRef "refs/heads/main".toList],
      command.refType = .branch := by decide
  refine ⟨hfail, (failed_unpack_iff lostPack [createRef "refs/heads/main".toList] [] hfail).mpr ⟨rfl, ?_⟩⟩
  intro command hmem htag
  rw [hbranch command hmem] at htag
  cases htag

/-- **A tag without its pack.** The pack is lost, and yet the tag is created and reported as `ok`. -/
theorem failed_unpack_creates_tag : lostPack.StoreFails ∧
    gitReceivePackStream lostPack [createRef "refs/tags/v1".toList] false [] =
      (.ok ⟨["unpack ok\n".toList, "ok refs/tags/v1".toList], none⟩,
        [⟨"refs/tags/v1".toList, List.replicate 40 'a', false⟩]) :=
  ⟨.inr ⟨_, rfl⟩, rfl⟩

end ReceivePack
end Mega
