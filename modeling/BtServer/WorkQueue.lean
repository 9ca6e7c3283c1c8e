import BtServer.Lib.Bytes
import BtServer.Lib.Run

/-! The work queue of `ot_mutex.c`. Every function holds `tasklist_mutex` from its
first access to the list to its last, so each of them is one step. -/

namespace BtServer
open Lib

def taskStats : Nat := 0x0100
def taskDone : Nat := 0x0f00
def taskClassMask : Nat := 0x0f00

/-- A task of the list. The source knows a task by its address; `tag` stands for
that, and is whatever its pusher wants to know it by. The result of a task is a
list of buffers. -/
structure Task (γ ρ : Type) where
  tag : γ
  taskid : Nat
  tasktype : Nat
  sock : Int
  iovec : List ρ
deriving DecidableEq, Repr

structure WorkQueue (γ ρ : Type) where
  nextFreeTaskid : Nat
  tasklist : List (Task γ ρ)
deriving DecidableEq, Repr

def updateFirst {α : Type} (wanted : α → Bool) (edit : α → α) : List α → List α
  | [] => []
  | first :: rest => if wanted first then edit first :: rest else first :: updateFirst wanted edit rest

/-- The loop `while( *task && !wanted ) *task = (*task)->next` followed by unlinking
`*task`. The pointer `task` points to `tasklist` all the time, so every task that
is passed is unlinked too. -/
def unlinkThrough {α : Type} (wanted : α → Bool) : List α → List α
  | [] => []
  | first :: rest => if wanted first then rest else unlinkThrough wanted rest

namespace WorkQueue
variable {γ ρ : Type}

def initial : WorkQueue γ ρ := ⟨1, []⟩

/-- `mutex_workqueue_pushtask`: 0, or -1 when there is no memory for the task. -/
def pushtask (queue : WorkQueue γ ρ) (allocated : Bool) (tag : γ) (sock : Int) (tasktype : Nat) : WorkQueue γ ρ × Int :=
  if allocated then ({ queue with tasklist := queue.tasklist ++ [⟨tag, 0, tasktype, sock, []⟩] }, 0) else (queue, -1)

def canceltask (queue : WorkQueue γ ρ) (sock : Int) : WorkQueue γ ρ :=
  { queue with tasklist := unlinkThrough (fun task => task.sock = sock) queue.tasklist }

/-- An unassigned task of the class a worker asks for. -/
def outstanding (tasktype : Nat) (task : Task γ ρ) : Bool := task.tasktype &&& taskClassMask = tasktype && task.taskid = 0

/-- One turn of the loop of `mutex_workqueue_poptask`: the task that was found,
with the id it was given, or nothing to do but wait. The id is an `unsigned long`. -/
def poptaskTurn (queue : WorkQueue γ ρ) (tasktype : Nat) : WorkQueue γ ρ × Option (Task γ ρ) :=
  match queue.tasklist.find? (outstanding tasktype) with
  | none => (queue, none)
  | some task =>
    let taskid := (queue.nextFreeTaskid + 1) % 2 ^ 64
    (⟨taskid, updateFirst (outstanding tasktype) (fun task => { task with taskid := taskid }) queue.tasklist⟩,
      some { task with taskid := taskid })

/-- `mutex_workqueue_poptask` until it has a task or has to wait. When the counter
wraps to 0 the loop is not left, and goes on with the type of the task it found. -/
def poptask (queue : WorkQueue γ ρ) (tasktype : Nat) : WorkQueue γ ρ × Option (Task γ ρ) :=
  match queue.poptaskTurn tasktype with
  | (queue, some task) => if task.taskid = 0 then queue.poptaskTurn task.tasktype else (queue, some task)
  | (queue, none) => (queue, none)

def pushsuccess (queue : WorkQueue γ ρ) (taskid : Nat) : WorkQueue γ ρ :=
  { queue with tasklist := unlinkThrough (fun task => task.taskid = taskid) queue.tasklist }

/-- `mutex_workqueue_pushresult`: -1 when the worker has to throw its result away. -/
def pushresult (queue : WorkQueue γ ρ) (taskid : Nat) (iovec : List ρ) : WorkQueue γ ρ × Int :=
  ({ queue with
      tasklist := updateFirst (fun task => task.taskid = taskid)
        (fun task => { task with iovec := iovec, tasktype := taskDone }) queue.tasklist },
    if queue.tasklist.any fun task => task.taskid = taskid then 0 else -1)

/-- `mutex_workqueue_popresult`: the task whose `sock` and `iovec` it returns. -/
def popresult (queue : WorkQueue γ ρ) : WorkQueue γ ρ × Option (Task γ ρ) :=
  ({ queue with tasklist := queue.tasklist.eraseP fun task => task.tasktype = taskDone },
    queue.tasklist.find? fun task => task.tasktype = taskDone)

end WorkQueue

/-- The calls of the queue in the order in which they get its mutex. -/
inductive QueueEvent where
  | push (allocated : Bool) (sock : Int) (tasktype : Nat)
  | pop (tasktype : Nat)
  | pushresult (taskid : Nat) (iovec : List Bytes)
  | popresult
  | pushsuccess (taskid : Nat)
  | cancel (sock : Int)
deriving DecidableEq, Repr

/-- The queue and the number of tasks pushed so far, which are numbered from 0. -/
structure QueueState where
  queue : WorkQueue Nat Bytes
  pushed : Nat
deriving DecidableEq, Repr

namespace QueueState

def initial : QueueState := ⟨.initial, 0⟩

def apply (state : QueueState) : QueueEvent → QueueState
  | .push allocated sock tasktype =>
    ⟨(state.queue.pushtask allocated state.pushed sock tasktype).1, if allocated then state.pushed + 1 else state.pushed⟩
  | .pop tasktype => { state with queue := (state.queue.poptask tasktype).1 }
  | .pushresult taskid iovec => { state with queue := (state.queue.pushresult taskid iovec).1 }
  | .popresult => { state with queue := state.queue.popresult.1 }
  | .pushsuccess taskid => { state with queue := state.queue.pushsuccess taskid }
  | .cancel sock => { state with queue := state.queue.canceltask sock }

def Step (before : QueueState) (event : QueueEvent) (after : QueueState) : Prop := before.apply event = after

end QueueState

end BtServer
