import BtServer.Connections
import BtServer.Proofs.TaskRemoval

/-! Results go to the connection that asked for them as long as no connection is
closed with a task of its own still in the list: a task only names the socket, and
the next connection may have the same one. -/

namespace BtServer.Proofs.ResultDelivery
open Lib WorkQueue TaskRemoval

variable {server : Server} {sock : Int} {closes : Bool}

def pending (server : Server) (sock : Int) : Nat := server.queue.tasklist.countP fun task => task.sock = sock

/-- A connection is only closed when all its tasks leave the list with it: `handle_dead`
cancels one task of a waiting connection, nothing else cancels any. And task ids do
not start again. -/
def Settled (server : Server) (event : NetEvent) : Prop :=
  match event with
  | .eof sock | .timeout sock | .write sock false =>
    ∀ cookie, server.cookies sock = some cookie → pending server sock ≤ if cookie.waitingForTask then 1 else 0
  | .read sock (.other true) => pending server sock = 0
  | .read sock (.stats mode _ true) => mode &&& taskClassMask ≠ taskStats → pending server sock = 0
  | .popresult allocated true => ∀ task, server.queue.tasklist.find? (fun task => task.tasktype = taskDone) = some task →
      task.iovec = [] ∨ allocated = false → pending server task.sock ≤ 1
  | .poptask _ => server.queue.nextFreeTaskid + 1 < 2 ^ 64
  | _ => True

structure Owned (server : Server) : Prop where
  home : ∀ task ∈ server.queue.tasklist, ∃ cookie, server.cookies task.sock = some cookie ∧ cookie.connection = task.tag
  results : ∀ task ∈ server.queue.tasklist, ∀ buffer ∈ task.iovec, buffer.owner = task.tag
  ids : ∀ task ∈ server.queue.tasklist, task.taskid ≤ server.queue.nextFreeTaskid
  workers : ∀ worker ∈ server.working, 0 < worker.taskid ∧ worker.taskid ≤ server.queue.nextFreeTaskid ∧
    ∀ task ∈ server.queue.tasklist, task.taskid = worker.taskid → task.tag = worker.tag
  sent : ∀ delivery ∈ server.sent, delivery.1.owner = delivery.2

section Lists
variable {α : Type}

theorem unlinkThrough_subset (wanted : α → Bool) (members : List α) {member : α}
    (inside : member ∈ unlinkThrough wanted members) : member ∈ members := by
  induction members with
  | nil => exact inside
  | cons first rest ih =>
    simp only [unlinkThrough] at inside
    split at inside
    · exact List.mem_cons_of_mem first inside
    · exact List.mem_cons_of_mem first (ih inside)

theorem unlinkThrough_none {wanted : α → Bool} {members : List α} (single : members.countP wanted ≤ 1) :
    ∀ member ∈ unlinkThrough wanted members, wanted member = false := by
  induction members with
  | nil => simp [unlinkThrough]
  | cons first rest ih =>
    simp only [unlinkThrough, List.countP_cons] at single ⊢
    split
    next hit =>
      intro member inside
      have none : rest.countP wanted = 0 := by simpa [hit] using single
      simpa using List.countP_eq_zero.mp none member inside
    next miss => exact ih (by simpa [miss] using single)

theorem mem_updateFirst_cases {wanted : α → Bool} {edit : α → α} {members : List α} {member : α}
    (inside : member ∈ updateFirst wanted edit members) :
    member ∈ members ∨ ∃ old, members.find? wanted = some old ∧ member = edit old := by
  induction members with
  | nil => exact .inl inside
  | cons first rest ih =>
    simp only [updateFirst] at inside
    split at inside
    next hit =>
      rcases List.mem_cons.mp inside with same | later
      · exact .inr ⟨first, by simp [hit], same⟩
      · exact .inl (List.mem_cons_of_mem first later)
    next miss =>
      rcases List.mem_cons.mp inside with same | later
      · exact .inl (by simp [same])
      · rcases ih later with inside | ⟨old, found, same⟩
        · exact .inl (List.mem_cons_of_mem first inside)
        · exact .inr ⟨old, by simpa [miss] using found, same⟩

theorem countP_eraseP {wanted : α → Bool} (counted : α → Bool) {members : List α} {member : α}
    (found : members.find? wanted = some member) (counts : counted member = true) :
    (members.eraseP wanted).countP counted + 1 = members.countP counted := by
  induction members with
  | nil => cases found
  | cons first rest ih =>
    by_cases hit : wanted first = true
    · have same : first = member := by simpa [hit] using found
      subst same
      simp [hit, counts]
    · have miss : wanted first = false := by simpa using hit
      have later := ih (by simpa [miss] using found)
      simp only [List.eraseP_cons, List.countP_cons, miss, cond_false]
      omega

end Lists

private theorem Owned.fewer (owned : Owned server) {tasklist : List (Task Nat Buffer)}
    (fewer : ∀ task ∈ tasklist, task ∈ server.queue.tasklist) :
    Owned { server with queue := ⟨server.queue.nextFreeTaskid, tasklist⟩ } :=
  ⟨fun task member => owned.home task (fewer task member), fun task member => owned.results task (fewer task member),
    fun task member => owned.ids task (fewer task member),
    fun worker busy => ⟨(owned.workers worker busy).1, (owned.workers worker busy).2.1,
      fun task member => (owned.workers worker busy).2.2 task (fewer task member)⟩, owned.sent⟩

private theorem Owned.cookies (owned : Owned server) (cookie : Option Cookie)
    (kept : ∀ task ∈ server.queue.tasklist, task.sock = sock → ∃ new, cookie = some new ∧ new.connection = task.tag) :
    Owned { server with cookies := Function.update server.cookies sock cookie } := by
  refine ⟨fun task member => ?_, owned.results, owned.ids, owned.workers, owned.sent⟩
  by_cases here : task.sock = sock
  · obtain ⟨new, same, connection⟩ := kept task member here
    exact ⟨new, by simp [here, same], connection⟩
  · obtain ⟨old, stored, connection⟩ := owned.home task member
    exact ⟨old, by simp [here, stored], connection⟩

private theorem Owned.close (owned : Owned server)
    (settled : ∀ task ∈ server.queue.tasklist, task.sock ≠ sock) : Owned (server.ioClose sock) :=
  owned.cookies none fun task member here => absurd here (settled task member)

private theorem Owned.flags (owned : Owned server) {old : Cookie} (new : Cookie)
    (stored : server.cookies sock = some old) (same : new.connection = old.connection) :
    Owned (server.ioSetcookie sock new) := by
  refine owned.cookies (some new) fun task member here => ⟨new, rfl, ?_⟩
  obtain ⟨cookie, found, connection⟩ := owned.home task member
  rw [here, stored] at found
  cases found
  exact same.trans connection

private theorem pending_zero (none : pending server sock = 0) :
    ∀ task ∈ server.queue.tasklist, task.sock ≠ sock := by
  intro task member
  simpa using List.countP_eq_zero.mp none task member

section Owners
variable (owned : Owned server)
include owned

private theorem Owned.senddata (settled : closes = true → ∀ task ∈ server.queue.tasklist, task.sock ≠ sock) :
    Owned (server.httpSenddata sock closes) := by
  unfold Server.httpSenddata
  split
  next none =>
    refine owned.close fun task member here => ?_
    obtain ⟨cookie, stored, _⟩ := owned.home task member
    simp [here, none] at stored
  next cookie stored =>
    split
    next closing => exact owned.close (settled closing)
    next => exact owned.flags _ stored rfl

private theorem Owned.push {cookie : Cookie} (stored : server.cookies sock = some cookie) (allocated : Bool) (tasktype : Nat) :
    Owned { server with queue := (server.queue.pushtask allocated cookie.connection sock tasktype).1 } := by
  cases allocated with
  | false => exact owned
  | true =>
    have cases : ∀ task ∈ (server.queue.pushtask true cookie.connection sock tasktype).1.tasklist,
        task ∈ server.queue.tasklist ∨ task = ⟨cookie.connection, 0, tasktype, sock, []⟩ := by
      intro task member
      simpa [pushtask] using member
    refine ⟨fun task member => ?_, fun task member => ?_, fun task member => ?_, fun worker busy => ?_, owned.sent⟩
    · rcases cases task member with old | rfl
      · exact owned.home task old
      · exact ⟨cookie, stored, rfl⟩
    · rcases cases task member with old | rfl
      · exact owned.results task old
      · simp
    · rcases cases task member with old | rfl
      · exact owned.ids task old
      · exact Nat.zero_le _
    · obtain ⟨positive, bound, tags⟩ := owned.workers worker busy
      refine ⟨positive, bound, fun task member same => ?_⟩
      rcases cases task member with old | rfl
      · exact tags task old same
      · exact absurd same (ne_of_lt positive)

private theorem Owned.dead
    (settled : ∀ cookie, server.cookies sock = some cookie → pending server sock ≤ if cookie.waitingForTask then 1 else 0) :
    Owned (server.handleDead sock) := by
  unfold Server.handleDead
  split
  next none =>
    refine owned.close fun task member here => ?_
    obtain ⟨cookie, stored, _⟩ := owned.home task member
    simp [here, none] at stored
  next cookie stored =>
    have bound := settled cookie stored
    split
    next waiting =>
      simp only [waiting, if_true] at bound
      have cancelled := owned.fewer fun task member =>
        unlinkThrough_subset (fun task => decide (task.sock = sock)) server.queue.tasklist member
      exact cancelled.close fun task member => by simpa using unlinkThrough_none bound task member
    next idle =>
      simp only [idle, Bool.false_eq_true, if_false, Nat.le_zero] at bound
      exact owned.close (pending_zero bound)

private theorem Owned.accept {prepared : Bool} (free : server.cookies sock = none) : Owned (server.handleAccept sock prepared) := by
  have unused : ∀ task ∈ server.queue.tasklist, task.sock ≠ sock := by
    intro task member here
    obtain ⟨cookie, stored, _⟩ := owned.home task member
    simp [here, free] at stored
  have counted : Owned { server with accepted := server.accepted + 1 } :=
    ⟨owned.home, owned.results, owned.ids, owned.workers, owned.sent⟩
  unfold Server.handleAccept
  split
  · exact counted.cookies _ fun task member here => absurd here (unused task member)
  · exact counted.close unused

private theorem Owned.read {request : Request}
    (settled : Settled server (.read sock request)) : Owned (server.handleRead sock request) := by
  unfold Server.handleRead
  split
  · exact owned
  next cookie stored =>
    cases request with
    | incomplete => exact owned
    | stats mode allocated closes =>
      simp only [Server.httpHandleStats]
      split
      · exact owned.push stored allocated mode
      next simple =>
        refine owned.senddata fun closing => ?_
        subst closing
        exact pending_zero (settled simple)
    | fullscrape tasktype allocated =>
      exact (owned.push stored allocated tasktype).flags _ stored rfl
    | other closes =>
      refine owned.senddata fun closing => ?_
      subst closing
      exact pending_zero settled

private theorem Owned.deliver {allocated : Bool}
    (settled : Settled server (.popresult allocated closes)) : Owned (server.sendResult allocated closes) := by
  unfold Server.sendResult
  split
  · exact owned
  next queue task popped =>
    simp only [popresult, Prod.mk.injEq] at popped
    obtain ⟨rfl, found⟩ := popped
    have member := List.mem_of_find?_eq_some found
    have left := owned.fewer fun other inside =>
      List.mem_of_mem_eraseP (p := fun task : Task Nat Buffer => decide (task.tasktype = taskDone)) inside
    obtain ⟨cookie, stored, connection⟩ := owned.home task member
    have answered := left.flags { cookie with waitingForTask := false } stored rfl
    split
    · exact left
    · simp only [Server.httpSendiovecdata, stored]
      split
      next error =>
        refine answered.senddata fun closing => ?_
        subst closing
        -- The result was the only task of its socket.
        have single := settled task found error
        have rest := countP_eraseP (fun other : Task Nat Buffer => decide (other.sock = task.sock)) found (by simp)
        have none : List.countP (fun other : Task Nat Buffer => decide (other.sock = task.sock))
            (server.queue.tasklist.eraseP fun task => decide (task.tasktype = taskDone)) = 0 := by
          unfold pending at single
          omega
        intro other inside
        simpa using List.countP_eq_zero.mp none other inside
      next =>
        have flags := answered.flags { cookie with waitingForTask := false, wantRead := false } (Function.update_self ..) rfl
        refine ⟨flags.home, flags.results, flags.ids, flags.workers, fun delivery inside => ?_⟩
        rcases List.mem_append.mp inside with old | new
        · exact owned.sent delivery old
        · obtain ⟨buffer, mine, rfl⟩ := List.mem_map.mp new
          exact (owned.results task member buffer mine).trans connection.symm

private theorem Owned.pop {tasktype : Nat} (settled : Settled server (.poptask tasktype)) : Owned (server.poptask tasktype) := by
  have fresh : (server.queue.nextFreeTaskid + 1) % 2 ^ 64 = server.queue.nextFreeTaskid + 1 := Nat.mod_eq_of_lt settled
  simp only [Server.poptask, poptask, poptaskTurn, fresh]
  cases found : server.queue.tasklist.find? (outstanding tasktype) with
  | none => exact owned
  | some task =>
    simp only [Nat.add_one_ne_zero, if_false]
    have member := List.mem_of_find?_eq_some found
    -- Every task is an old one or the popped one with its new id.
    have cases : ∀ other ∈ updateFirst (outstanding tasktype)
        (fun task => { task with taskid := server.queue.nextFreeTaskid + 1 }) server.queue.tasklist,
        other ∈ server.queue.tasklist ∨ other = { task with taskid := server.queue.nextFreeTaskid + 1 } := by
      intro other inside
      rcases mem_updateFirst_cases inside with old | ⟨old, same, rfl⟩
      · exact .inl old
      · rw [found] at same
        cases same
        exact .inr rfl
    refine ⟨fun other inside => ?_, fun other inside => ?_, fun other inside => ?_, fun worker busy => ?_, owned.sent⟩
    · rcases cases other inside with old | rfl
      · exact owned.home other old
      · exact owned.home task member
    · rcases cases other inside with old | rfl
      · exact owned.results other old
      · exact owned.results task member
    · rcases cases other inside with old | rfl
      · exact Nat.le_succ_of_le (owned.ids other old)
      · exact le_refl _
    · rcases List.mem_append.mp busy with before | now
      · obtain ⟨positive, bound, tags⟩ := owned.workers worker before
        refine ⟨positive, Nat.le_succ_of_le bound, fun other inside same => ?_⟩
        rcases cases other inside with old | rfl
        · exact tags other old same
        · simp only at same
          omega
      · rw [List.mem_singleton.mp now]
        refine ⟨Nat.succ_pos _, le_refl _, fun other inside same => ?_⟩
        rcases cases other inside with old | rfl
        · have bound := owned.ids other old
          simp only at same
          omega
        · rfl

private theorem Owned.result (worker : Nat) (result : List Bytes) :
    Owned (server.pushresult worker result) := by
  unfold Server.pushresult
  split
  · exact owned
  next task busy =>
    obtain ⟨_, _, tags⟩ := owned.workers task (List.mem_of_getElem? busy)
    have cases : ∀ other ∈ (server.queue.pushresult task.taskid (result.map fun bytes => ⟨task.tag, bytes⟩)).1.tasklist,
        other ∈ server.queue.tasklist ∨ ∃ old ∈ server.queue.tasklist, old.taskid = task.taskid ∧
          other = { old with iovec := result.map fun bytes => ⟨task.tag, bytes⟩, tasktype := taskDone } := by
      intro other inside
      rcases mem_updateFirst_cases inside with old | ⟨old, found, rfl⟩
      · exact .inl old
      · exact .inr ⟨old, List.mem_of_find?_eq_some found, by simpa using List.find?_some found, rfl⟩
    refine ⟨fun other inside => ?_, fun other inside => ?_, fun other inside => ?_, fun other busy => ?_, owned.sent⟩
    · rcases cases other inside with old | ⟨old, member, _, rfl⟩
      · exact owned.home other old
      · exact owned.home old member
    · rcases cases other inside with old | ⟨old, member, same, rfl⟩
      · exact owned.results other old
      · intro buffer made
        obtain ⟨bytes, _, rfl⟩ := List.mem_map.mp made
        exact (tags old member same).symm
    · rcases cases other inside with old | ⟨old, member, _, rfl⟩
      · exact owned.ids other old
      · exact owned.ids old member
    · obtain ⟨positive, bound, own⟩ := owned.workers other (List.mem_of_mem_eraseIdx busy)
      refine ⟨positive, bound, fun later inside same => ?_⟩
      rcases cases later inside with old | ⟨old, member, _, rfl⟩
      · exact own later old same
      · exact own old member same

end Owners

theorem step_owned {before after : Server} {event : NetEvent} (owned : Owned before) (settled : Settled before event)
    (step : Server.Step before event after) : Owned after := by
  obtain ⟨possible, rfl⟩ := step
  cases event with
  | accept sock prepared => exact owned.accept possible.2
  | read sock request => exact owned.read settled
  | eof sock => exact owned.dead settled
  | write sock progress =>
    cases progress with
    | true => exact owned
    | false => exact owned.dead settled
  | timeout sock => exact owned.dead settled
  | poptask tasktype => exact owned.pop settled
  | pushresult worker result => exact owned.result worker result
  | popresult allocated closes => exact owned.deliver settled

/-- In a run that never closes a connection with a task left behind, every buffer
that is sent goes to the connection whose request it was made for. -/
theorem results_reach_their_connection {events : List NetEvent} {final : Server}
    (run : Run Server.Step Settled .initial events final) :
    ∀ delivery ∈ final.sent, delivery.1.owner = delivery.2 := by
  have start : Owned .initial :=
    ⟨by simp [Server.initial, WorkQueue.initial], by simp [Server.initial, WorkQueue.initial],
      by simp [Server.initial, WorkQueue.initial], by simp [Server.initial], by simp [Server.initial]⟩
  exact (run.invariant Owned (fun _ _ _ owned settled step => step_owned owned settled step) start).sent

def statsRequest : List NetEvent :=
  [.accept 5 true, .read 5 (.stats 0x0101 true false), .poptask taskStats, .pushresult 0 [[49]], .popresult true false]

theorem results_reach_their_connection_stats : (statsRequest.foldl Server.apply .initial).sent = [(⟨0, [49]⟩, 0)] ∧
      ∀ delivery ∈ (statsRequest.foldl Server.apply .initial).sent, delivery.1.owner = delivery.2 := by
  have run : Run Server.Step Settled .initial statsRequest (statsRequest.foldl Server.apply .initial) :=
    .next trivial ⟨⟨by decide, rfl⟩, rfl⟩ <| .next trivial ⟨⟨_, rfl, rfl⟩, rfl⟩ <|
    .next (Nat.lt_of_sub_pos (by decide)) ⟨trivial, rfl⟩ <| .next trivial ⟨trivial, rfl⟩ <|
    .next trivial ⟨trivial, rfl⟩ (.done _)
  exact ⟨rfl, results_reach_their_connection run⟩

/-- Connection 0 asks for the torrent statistics and hangs up while a worker makes
them. Nothing cancels its task, and the statistics are sent to connection 1, which
has the same socket. -/
theorem result_sent_to_other : ∃ final, Run Server.Step free .initial
      [.accept 5 true, .read 5 (.stats 0x0101 true false), .poptask taskStats, .eof 5, .accept 5 true,
        .pushresult 0 [[49]], .popresult true false] final ∧
      final.sent = [(⟨0, [49]⟩, 1)] :=
  ⟨_, .next trivial ⟨⟨by decide, rfl⟩, rfl⟩ <| .next trivial ⟨⟨_, rfl, rfl⟩, rfl⟩ <| .next trivial ⟨trivial, rfl⟩ <|
    .next trivial ⟨⟨_, rfl, rfl⟩, rfl⟩ <| .next trivial ⟨⟨by decide, rfl⟩, rfl⟩ <| .next trivial ⟨trivial, rfl⟩ <|
    .next trivial ⟨trivial, rfl⟩ (.done _), rfl⟩

end BtServer.Proofs.ResultDelivery
