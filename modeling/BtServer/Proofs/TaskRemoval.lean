import BtServer.WorkQueue

/-! Removing a task from the work queue. `canceltask` and `pushsuccess` remove the
task they look for and every task before it, so they remove no other task just
when theirs is at the head of the list. -/

namespace BtServer.Proofs.TaskRemoval
open Lib WorkQueue

variable {task : Task Nat Bytes} {γ ρ : Type} {events : List QueueEvent}

section Lists
variable {α : Type}

private theorem unlinkThrough_length (wanted : α → Bool) (members : List α) :
    (unlinkThrough wanted members).length ≤ members.length - 1 := by
  induction members with
  | nil => simp [unlinkThrough]
  | cons first rest ih =>
    simp only [unlinkThrough, List.length_cons, Nat.add_sub_cancel]
    split
    · exact le_refl _
    · omega

theorem unlinkThrough_eq_eraseP (wanted : α → Bool) (members : List α) :
    unlinkThrough wanted members = members.eraseP wanted ↔ ∀ first, members.head? = some first → wanted first = true := by
  cases members with
  | nil => simp [unlinkThrough]
  | cons first rest =>
    simp only [unlinkThrough, List.head?_cons, Option.some.injEq, forall_eq']
    by_cases hit : wanted first = true
    · simp [hit]
    · have miss : wanted first = false := by simpa using hit
      simp only [miss, List.eraseP_cons, cond_false, Bool.false_eq_true, if_false, iff_false]
      intro equal
      -- The head would have to survive, but what is left is too short for it.
      have short := unlinkThrough_length wanted rest
      have long : rest.length - 1 ≤ (rest.eraseP wanted).length := by
        rw [List.length_eraseP]
        split <;> omega
      have lengths := congrArg List.length equal
      simp only [List.length_cons] at lengths
      have some : 0 < rest.length := by
        by_contra none
        simp [List.eq_nil_of_length_eq_zero (Nat.eq_zero_of_not_pos none), unlinkThrough] at lengths
      omega

theorem mem_updateFirst {wanted : α → Bool} {edit : α → α} {members : List α} {member : α} (inside : member ∈ members) :
    member ∈ updateFirst wanted edit members ∨ edit member ∈ updateFirst wanted edit members := by
  induction members with
  | nil => simp at inside
  | cons first rest ih =>
    simp only [updateFirst]
    rcases List.mem_cons.mp inside with rfl | later
    · split <;> simp
    · split
      · exact .inl (by simp [later])
      · exact (ih later).imp (List.mem_cons_of_mem first) (List.mem_cons_of_mem first)

theorem mem_eraseP {wanted : α → Bool} {members : List α} {member : α} (inside : member ∈ members) :
    member ∈ members.eraseP wanted ∨ wanted member = true := by
  by_cases hit : wanted member = true
  · exact .inr hit
  · exact .inl ((List.mem_eraseP_of_neg (by simpa using hit)).mpr inside)

end Lists

/-- A cancel or a success finds its own task at the head of the list. -/
def AtHead (state : QueueState) (event : QueueEvent) : Prop :=
  match event with
  | .cancel sock => ∀ task, state.queue.tasklist.head? = some task → task.sock = sock
  | .pushsuccess taskid => ∀ task, state.queue.tasklist.head? = some task → task.taskid = taskid
  | _ => True

/-- The event is one a task may leave the list through. -/
def Departure (event : QueueEvent) (task : Task Nat Bytes) : Prop :=
  match event with
  | .popresult => task.tasktype = taskDone
  | .pushsuccess taskid => task.taskid = taskid
  | .cancel sock => task.sock = sock
  | .push .. | .pop .. | .pushresult .. => False

theorem canceltask_eq_eraseP (queue : WorkQueue γ ρ) (sock : Int) :
    (queue.canceltask sock).tasklist = queue.tasklist.eraseP (fun task => task.sock = sock) ↔
      ∀ task, queue.tasklist.head? = some task → task.sock = sock := by
  simpa [canceltask] using unlinkThrough_eq_eraseP (fun task : Task γ ρ => decide (task.sock = sock)) queue.tasklist

theorem pushsuccess_eq_eraseP (queue : WorkQueue γ ρ) (taskid : Nat) :
    (queue.pushsuccess taskid).tasklist = queue.tasklist.eraseP (fun task => task.taskid = taskid) ↔
      ∀ task, queue.tasklist.head? = some task → task.taskid = taskid := by
  simpa [pushsuccess] using unlinkThrough_eq_eraseP (fun task : Task γ ρ => decide (task.taskid = taskid)) queue.tasklist

private theorem poptaskTurn_keeps (queue : WorkQueue Nat Bytes) (tasktype : Nat) (member : task ∈ queue.tasklist) :
    ∃ later ∈ (queue.poptaskTurn tasktype).1.tasklist, later.tag = task.tag := by
  simp only [poptaskTurn]
  split
  · exact ⟨task, member, rfl⟩
  · rcases mem_updateFirst member with kept | edited
    · exact ⟨task, kept, rfl⟩
    · exact ⟨_, edited, rfl⟩

private theorem poptask_keeps (queue : WorkQueue Nat Bytes) (tasktype : Nat) (member : task ∈ queue.tasklist) :
    ∃ later ∈ (queue.poptask tasktype).1.tasklist, later.tag = task.tag := by
  have first := poptaskTurn_keeps queue tasktype member
  unfold poptask
  generalize queue.poptaskTurn tasktype = turn at first ⊢
  obtain ⟨next, found⟩ := turn
  cases found with
  | none => exact first
  | some found =>
    simp only
    split
    · obtain ⟨middle, inside, same⟩ := first
      obtain ⟨later, kept, equal⟩ := poptaskTurn_keeps next found.tasktype inside
      exact ⟨later, kept, equal.trans same⟩
    · exact first

theorem step_keeps {state : QueueState} {event : QueueEvent} (careful : AtHead state event) (member : task ∈ state.queue.tasklist) :
    (∃ later ∈ (state.apply event).queue.tasklist, later.tag = task.tag) ∨ Departure event task := by
  cases event with
  | push allocated sock tasktype =>
    refine .inl ⟨task, ?_, rfl⟩
    cases allocated <;> simp [QueueState.apply, pushtask, member]
  | pop tasktype => exact .inl (poptask_keeps state.queue tasktype member)
  | pushresult taskid iovec =>
    rcases mem_updateFirst member with kept | edited
    · exact .inl ⟨task, kept, rfl⟩
    · exact .inl ⟨_, edited, rfl⟩
  | popresult =>
    rcases mem_eraseP member with kept | done
    · exact .inl ⟨task, kept, rfl⟩
    · exact .inr (by simpa [Departure] using done)
  | pushsuccess taskid =>
    rcases mem_eraseP member with kept | own
    · exact .inl ⟨task, by simpa only [QueueState.apply, (pushsuccess_eq_eraseP _ _).mpr careful] using kept, rfl⟩
    · exact .inr (by simpa [Departure] using own)
  | cancel sock =>
    rcases mem_eraseP member with kept | own
    · exact .inl ⟨task, by simpa only [QueueState.apply, (canceltask_eq_eraseP _ _).mpr careful] using kept, rfl⟩
    · exact .inr (by simpa [Departure] using own)

/-- Task number `serial` was in the list at some point of the run and left it there
through one of its departures. -/
def Departed (serial : Nat) (events : List QueueEvent) : Prop :=
  ∃ before event after state task, events = before ++ event :: after ∧ Run QueueState.Step AtHead .initial before state ∧
    task ∈ state.queue.tasklist ∧ task.tag = serial ∧ Departure event task ∧
    ∀ later ∈ (state.apply event).queue.tasklist, later.tag ≠ serial

private theorem Departed.later {serial : Nat} (departed : Departed serial events)
    (event : QueueEvent) : Departed serial (events ++ [event]) := by
  obtain ⟨before, departure, after, state, task, rfl, rest⟩ := departed
  exact ⟨before, departure, after ++ [event], state, task, by simp, rest⟩

theorem pushed_kept {final : QueueState} (run : Run QueueState.Step AtHead .initial events final) :
    ∀ serial < final.pushed, (∃ task ∈ final.queue.tasklist, task.tag = serial) ∨ Departed serial events := by
  suffices both : Run QueueState.Step AtHead .initial events final ∧
      ∀ serial < final.pushed, (∃ task ∈ final.queue.tasklist, task.tag = serial) ∨ Departed serial events from both.2
  refine run.history (fun past state => Run QueueState.Step AtHead .initial past state ∧
    ∀ serial < state.pushed, (∃ task ∈ state.queue.tasklist, task.tag = serial) ∨ Departed serial past) ?_ ?_
  · rintro past before event after ⟨reached, kept⟩ careful rfl
    refine ⟨reached.snoc careful rfl, fun serial issued => ?_⟩
    by_cases old : serial < before.pushed
    · rcases kept serial old with ⟨task, member, rfl⟩ | departed
      · by_cases stays : ∃ later ∈ (before.apply event).queue.tasklist, later.tag = task.tag
        · exact .inl stays
        · have leaves := (step_keeps careful member).resolve_left stays
          push Not at stays
          exact .inr ⟨past, event, [], before, task, rfl, reached, member, rfl, leaves, stays⟩
      · exact .inr (departed.later event)
    · -- The task is the one this event has pushed.
      cases event with
      | push allocated sock tasktype =>
        cases allocated with
        | false => exact absurd issued old
        | true =>
          have number : serial = before.pushed := by
            simp only [QueueState.apply, if_true] at issued
            omega
          exact .inl ⟨⟨before.pushed, 0, tasktype, sock, []⟩, by simp [QueueState.apply, pushtask], number.symm⟩
      | pop | pushresult | popresult | pushsuccess | cancel => exact absurd issued old
  · exact ⟨.done _, fun serial none => by simp [QueueState.initial] at none⟩

/-- A cancel removes exactly the first task of its socket, and a success exactly the
first task with its id, just when the list is empty or that task is its head. In a
run in which this is always so, a pushed task leaves the list only through a
departure of its own. -/
theorem removal_exact {γ ρ : Type} : (∀ (queue : WorkQueue γ ρ) (sock : Int),
      (queue.canceltask sock).tasklist = queue.tasklist.eraseP (fun task => task.sock = sock) ↔
        ∀ task, queue.tasklist.head? = some task → task.sock = sock) ∧
    (∀ (queue : WorkQueue γ ρ) (taskid : Nat),
      (queue.pushsuccess taskid).tasklist = queue.tasklist.eraseP (fun task => task.taskid = taskid) ↔
        ∀ task, queue.tasklist.head? = some task → task.taskid = taskid) ∧
    ∀ (events : List QueueEvent) (final : QueueState), Run QueueState.Step AtHead .initial events final →
      ∀ serial < final.pushed, (∃ task ∈ final.queue.tasklist, task.tag = serial) ∨ Departed serial events :=
  ⟨canceltask_eq_eraseP, pushsuccess_eq_eraseP, fun _ _ run => pushed_kept run⟩

theorem removal_exact_cancelled : Departed 0 [.push true 7 taskStats, .cancel 7] := by
  have run : Run QueueState.Step AtHead .initial [.push true 7 taskStats, .cancel 7] ⟨.initial, 1⟩ := by
    refine .next trivial rfl (.next ?_ rfl (.done _))
    intro task head
    cases head
    rfl
  refine ((removal_exact (γ := Nat) (ρ := Nat)).2.2 _ _ run 0 (by decide)).resolve_left ?_
  simp [WorkQueue.initial]

/-- Two tasks are pushed for different sockets; the cancel for the second one
removes both. A cancel for a socket without a task empties the list, too. -/
theorem cancel_removes_others :
    ([.push true 7 taskStats, .push true 8 taskStats, .cancel 8].foldl QueueState.apply .initial).queue.tasklist = [] ∧
    ([.push true 7 taskStats, .cancel 8].foldl QueueState.apply .initial).queue.tasklist = [] ∧
    ([.push true 7 taskStats, .push true 8 taskStats].foldl QueueState.apply .initial).queue.tasklist.eraseP
      (fun task => task.sock = 8) = [⟨0, 0, taskStats, 7, []⟩] := by
  decide

end BtServer.Proofs.TaskRemoval
