/-
# Terminal states of finalize tasks

A finalize task ends when it is complete, or when it failed and may not be
retried, which is also how a cancelled task ends. Claiming, completing and
failing a task compare the epoch and the lease, not the state, and a cancel
leaves the epoch as it is. So a worker that was queued behind another one claims
a task that is complete, and a worker whose task was cancelled completes it. As
long as these three calls reach only tasks that have not ended, the ends are
final, whoever calls and in whatever order.

Key definitions: `TaskRow.ended`, `TakesEffect`, `RespectsEnd`.
Key theorems: `ended_step`, `ends_are_final`.
-/
import Mega.Media.Calls

namespace Mega
namespace Media

open View

variable {task : TaskRow} {taskId : Text} {system : System}

/-- Complete, or failed without retry. -/
def TaskRow.ended (task : TaskRow) : Bool := task.state = .complete ∨ (task.state = .failed ∧ task.retryable = false)

/-! ### Ends -/

/-- The call is not lost before it does anything, and it is not refused. -/
def TakesEffect (input : Input) (op : Op) (w : World) : Prop :=
  (∀ e, input.fault ≠ .before e) ∧ (perform input op w).2.isOk = true

/-- A claim or renewal, a completion or a failure, with its task. -/
def Op.leaseCall : Op → Option Text
  | .claimOrRenewLease taskId _ _ => some taskId
  | .completeTask taskId _ => some taskId
  | .failTask taskId _ _ _ => some taskId
  | _ => none

/-- The event does the call, and the call takes effect. -/
def Does (system : System) (event : Event) (op : Op) : Prop :=
  ∃ i input, event = .advance i input ∧ event.op? system = some op ∧ TakesEffect input op system.shared

/-- A claim, a completion or a failure takes effect only on a task that has not ended. -/
def RespectsEnd (system : System) (event : Event) : Prop :=
  ∀ op taskId task, Does system event op → op.leaseCall = some taskId →
    system.shared.task? taskId = some task → task.ended = false

/-- The row of the task has ended as `task` has. -/
def EndedAs (taskId : Text) (task : TaskRow) (w : World) : Prop :=
  ∃ row, w.task? taskId = some row ∧ row.state = task.state ∧ row.retryable = task.retryable

theorem ended_eq_true :
    task.ended = true ↔ task.state = .complete ∨ (task.state = .failed ∧ task.retryable = false) := by
  simp [TaskRow.ended]

/-- The other calls leave an ended task as it ended. -/
theorem ended_of_taskChange {now : ℕ} {op : Op} {change : TaskRow → Except PagingError TaskRow}
    (hop : op.taskChange now = some (taskId, change)) (hcall : op.leaseCall = none) {new : TaskRow}
    (hended : task.ended = true) (h : change task = .ok new) :
    new.state = task.state ∧ new.retryable = task.retryable := by
  cases op with
  | updateTaskProgress _ _ _ _ _ =>
    cases hop
    unfold progressRow withEpoch at h
    split at h
    · cases h
    · split at h <;> cases h
      exact ⟨rfl, rfl⟩
  | cancelTask _ =>
    cases hop
    unfold cancelRow at h
    split at h
    · cases h
    · rename_i hcomplete
      cases h
      obtain hstate | ⟨hstate, hretry⟩ := ended_eq_true.mp hended
      · exact absurd hstate hcomplete
      · exact ⟨hstate.symm, hretry.symm⟩
  | requeueFailedTask _ =>
    cases hop
    unfold requeueRow at h
    split at h
    · cases h
    · rename_i hretry
      obtain hstate | ⟨hstate, hfalse⟩ := ended_eq_true.mp hended
      · simp [hstate] at hretry
      · simp [hfalse] at hretry
  | claimOrRenewLease _ _ _ => cases hcall
  | completeTask _ _ => cases hcall
  | failTask _ _ _ _ => cases hcall
  | _ => cases hop

theorem leaseCall_of_taskChange {now : ℕ} {op : Op} {change : TaskRow → Except PagingError TaskRow}
    (hop : op.taskChange now = some (taskId, change)) : op.leaseCall = none ∨ op.leaseCall = some taskId := by
  cases op with
  | claimOrRenewLease _ _ _ =>
    cases hop
    exact .inr rfl
  | completeTask _ _ =>
    cases hop
    exact .inr rfl
  | failTask _ _ _ _ =>
    cases hop
    exact .inr rfl
  | _ => exact .inl rfl

/-- **A step that respects ends keeps them.** -/
theorem ended_step {codec : Codec} {event : Event} (hok : RespectsEnd system event) (hended : task.ended = true)
    (h : EndedAs taskId task system.shared) :
    EndedAs taskId task (Pool.step exec (code codec) system event).shared := by
  obtain hsame | ⟨i, input, op, rfl, hop, hshared⟩ := Pool.shared_step exec (code codec) system event
  · rw [hsame]
    exact h
  rw [hshared]
  obtain hlost | ⟨hfault, heffect⟩ := exec_cases input op system.shared
  · rwa [hlost]
  rw [heffect]
  obtain ⟨row, hrow, hstate, hretry⟩ := h
  have hrowEnded : row.ended = true := by
    rw [ended_eq_true] at hended ⊢
    rwa [hstate, hretry]
  obtain hsame | ⟨change, new, hchange, hnew, hdone, hafter⟩ := task?_perform input op hrow
  · exact ⟨row, hsame, hstate, hretry⟩
  · obtain hcall | hcall := leaseCall_of_taskChange hchange
    · obtain ⟨hs, hr⟩ := ended_of_taskChange hchange hcall hrowEnded hnew
      exact ⟨new, hafter, hs.trans hstate, hr.trans hretry⟩
    · have hdoes : Does system (.advance i input) op := ⟨i, input, rfl, hop, hfault, hdone⟩
      rw [hok op taskId row hdoes hcall hrow] at hrowEnded
      cases hrowEnded

theorem ended_run {codec : Codec} {events : List Event}
    (h : Run.Meets (Pool.step exec (code codec)) RespectsEnd system events) (hended : task.ended = true)
    (htask : EndedAs taskId task system.shared) : EndedAs taskId task (run codec system events).shared := by
  have hstep : ∀ (system : System) (event : Event), RespectsEnd system event →
      EndedAs taskId task system.shared → EndedAs taskId task (Pool.step exec (code codec) system event).shared :=
    fun system event hok hrow => ended_step hok hended hrow
  exact Run.run_invariant_of_meets hstep events h htask

/-- A cancel that takes effect leaves a task that has ended. -/
theorem cancelled_step (codec : Codec) {event : Event} (h : Does system event (.cancelTask taskId)) :
    ∃ row, (Pool.step exec (code codec) system event).shared.task? taskId = some row ∧
      row.state = .failed ∧ row.retryable = false := by
  obtain ⟨i, input, rfl, hop, hfault, hok⟩ := h
  rw [Pool.shared_advance system hop, exec_of_effect hfault]
  rw [perform] at hok ⊢
  unfold cancelTask at hok ⊢
  obtain ⟨e, he⟩ | ⟨task, new, htask, hnew, hdone⟩ := onTask_cases system.shared.paging taskId cancelRow
  · rw [he] at hok
    cases hok
  · have hid : task.taskId = taskId := by simpa using List.find?_some htask
    have hkeep : new.taskId = taskId := by
      rw [← hid]
      exact congrArg Prod.fst (ident_of_taskChange 0 (.cancelTask taskId) rfl hnew)
    refine ⟨new, ?_, ?_⟩
    · have hafter := Table.find?_updateKey_const hkeep taskId system.shared.paging.tasks
      rw [if_pos rfl, htask, Option.map_some] at hafter
      rw [hdone]
      exact hafter
    · unfold cancelRow at hnew
      split at hnew <;> cases hnew
      exact ⟨rfl, rfl⟩

/-- **The ends of finalize tasks are final** in every run in which claims, completions and failures take
effect only on tasks that have not ended: a complete task stays complete, a cancelled task is never running
or complete again, and a task that failed without retry is not claimed. -/
theorem ends_are_final (codec : Codec) {system : System} {before after : List Event}
    (h : Run.Meets (Pool.step exec (code codec)) RespectsEnd system (before ++ after)) (taskId : Text) :
    (∀ task, (run codec system before).shared.task? taskId = some task → task.state = .complete →
      ∃ later, (run codec system (before ++ after)).shared.task? taskId = some later ∧
        later.state = .complete) ∧
    (∀ earlier event, before = earlier ++ [event] →
      Does (run codec system earlier) event (.cancelTask taskId) →
      ∃ later, (run codec system (before ++ after)).shared.task? taskId = some later ∧
        later.state ≠ .running ∧ later.state ≠ .complete) ∧
    (∀ task, (run codec system before).shared.task? taskId = some task → task.state = .failed →
      task.retryable = false → ∀ between event rest owner expectedEpoch, after = between ++ event :: rest →
        ¬ Does (run codec system (before ++ between)) event (.claimOrRenewLease taskId owner expectedEpoch)) := by
  obtain ⟨-, hafter⟩ := Run.meets_append.mp h
  have hrun : run codec system (before ++ after) = run codec (run codec system before) after :=
    Run.run_append _ _ _ _
  refine ⟨?_, ?_, ?_⟩
  · intro task htask hcomplete
    have hended : task.ended = true := ended_eq_true.mpr (.inl hcomplete)
    obtain ⟨later, hlater, hstate, -⟩ := ended_run hafter hended ⟨task, htask, rfl, rfl⟩
    rw [hrun]
    exact ⟨later, hlater, hstate.trans hcomplete⟩
  · rintro earlier event rfl hcancel
    obtain ⟨task, htask, hfailed, hretry⟩ := cancelled_step codec hcancel
    have hended : task.ended = true := ended_eq_true.mpr (.inr ⟨hfailed, hretry⟩)
    have hbefore : (run codec system (earlier ++ [event])).shared.task? taskId = some task := by
      rw [run, Run.run_concat]
      exact htask
    obtain ⟨later, hlater, hstate, -⟩ := ended_run hafter hended ⟨task, hbefore, rfl, rfl⟩
    rw [hrun]
    refine ⟨later, hlater, ?_, ?_⟩ <;> simp [hstate, hfailed]
  · rintro task htask hfailed hretry between event rest owner expectedEpoch rfl hclaim
    have hended : task.ended = true := ended_eq_true.mpr (.inr ⟨hfailed, hretry⟩)
    obtain ⟨hbetween, hrest⟩ := Run.meets_append.mp hafter
    obtain ⟨row, hrow, hstate, hkept⟩ := ended_run hbetween hended ⟨task, htask, rfl, rfl⟩
    have hrowEnded : row.ended = true := ended_eq_true.mpr (.inr ⟨hstate.trans hfailed, hkept.trans hretry⟩)
    have happend : run codec system (before ++ between) = run codec (run codec system before) between :=
      Run.run_append _ _ _ _
    rw [happend] at hclaim
    have hopen := hrest.1 _ taskId row hclaim rfl hrow
    rw [hopen] at hrowEnded
    cases hrowEnded

/-! ### Ends that are not final -/

/-- An empty file; every hash is the same and every encoding is empty. -/
def plainCodec : Codec :=
  ⟨fun _ => List.replicate 64 'a', fun _ => [], fun _ => 0, fun _ => 0, fun _ => 0, fun _ => 0, fun _ => 0⟩

def plainId : Text := List.replicate 64 'a'

def emptyFile : MediaManifest :=
  ⟨manifestVersion, chunkAlgorithm, hashAlgorithm, plainId, 0, [], ⟨[], [], []⟩, none⟩

def plainScope : Text := "scope".toList

def enqueued (owner : String) : Request := .enqueueFinalize plainScope plainId owner.toList 0

/-- The file is prepared and sealed, and finalize is asked for twice. -/
def enqueuedTwice : List Event :=
  served (.prepare plainScope emptyFile 0) 0 3 ++ served (.sealManifest plainScope plainId 0) 1 3 ++
    served (enqueued "worker-1") 2 3 ++ served (enqueued "worker-2") 3 3

def stateAfter (events : List Event) : Option TaskState :=
  ((run plainCodec System.empty events).shared.task? "task".toList).map TaskRow.state

/-- A run may be checked call by call. -/
theorem respectsEnd_of_op? {event : Event}
    (h : ((event.op? system).bind Op.leaseCall).all (fun taskId =>
      (system.shared.task? taskId).all fun task => !task.ended) = true) : RespectsEnd system event := by
  rintro op taskId task ⟨i, input, rfl, hop, -⟩ hcall htask
  rw [hop, Option.bind_some, hcall, Option.all_some, htask, Option.all_some] at h
  simpa using h

def queuedTask : TaskRow :=
  ⟨"task".toList, plainScope, plainId, none, 0, none, .pending, 0, 0, true, none, .queued⟩

/-- A service where every session is sealed, with a queued task. -/
def queuedSystem : System :=
  ⟨{ World.empty with
    paging := ⟨fun _ => some ⟨chunkAlgorithm, plainId, 0, 0, 0, .sealed, 1⟩, [], [queuedTask]⟩ }, []⟩

def claimedAndCancelled : List Event :=
  served (enqueued "worker-1") 0 4 ++ [.start (.cancelTask "task".toList), .advance 1 plainInput]

/-- A worker claims the task, it is cancelled, and a requeue of it is refused. -/
theorem ends_final_of_cancelled :
    Run.Meets (Pool.step exec (code plainCodec)) RespectsEnd queuedSystem
        (claimedAndCancelled ++ served (.requeueTask "task".toList) 2 1) ∧
      ∃ later, (run plainCodec queuedSystem (claimedAndCancelled ++
          served (.requeueTask "task".toList) 2 1)).shared.task? "task".toList = some later ∧
        later.state ≠ .running ∧ later.state ≠ .complete := by
  have hmeets : Run.Meets (Pool.step exec (code plainCodec)) RespectsEnd queuedSystem
      (claimedAndCancelled ++ served (.requeueTask "task".toList) 2 1) :=
    ⟨respectsEnd_of_op? (by decide +kernel), respectsEnd_of_op? (by decide +kernel),
      respectsEnd_of_op? (by decide +kernel), respectsEnd_of_op? (by decide +kernel),
      respectsEnd_of_op? (by decide +kernel), respectsEnd_of_op? (by decide +kernel),
      respectsEnd_of_op? (by decide +kernel), respectsEnd_of_op? (by decide +kernel),
      respectsEnd_of_op? (by decide +kernel), trivial⟩
  refine ⟨hmeets, (ends_are_final plainCodec hmeets "task".toList).2.1
    (served (enqueued "worker-1") 0 4 ++ [.start (.cancelTask "task".toList)]) (.advance 1 plainInput) rfl ?_⟩
  have hfault : ∀ e, plainInput.fault ≠ .before e := by
    intro e he
    cases he
  exact ⟨1, plainInput, rfl, rfl, hfault, by decide +kernel⟩

/-- The first of two workers completes the task, then the second one claims it. And a task that is cancelled
while its worker runs is completed by the worker. -/
theorem ends_not_final_of_two_workers :
    stateAfter (enqueuedTwice ++ calls 2 19) = some .complete ∧
      stateAfter (enqueuedTwice ++ calls 2 19 ++ calls 3 1) = some .running ∧
      stateAfter (enqueuedTwice ++ calls 2 18 ++ served (.cancelTask "task".toList) 4 1) = some .failed ∧
      stateAfter (enqueuedTwice ++ calls 2 18 ++ served (.cancelTask "task".toList) 4 1 ++ calls 2 1) =
        some .complete := by
  decide +kernel

end Media
end Mega
