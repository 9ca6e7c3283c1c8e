import BtServer.WorkQueue
import Mathlib.Logic.Function.Basic

/-! HTTP connections and the tasks they wait for: `opentracker.c`, the sending half
of `ot_http.c` and the worker threads. A connection is known by its number among
all accepted ones, its socket number is used again after it was closed. -/

namespace BtServer
open Lib

/-- The part of a `struct http_data` that the tasks depend on, and whether the
event loop still reports the socket as readable. -/
structure Cookie where
  connection : Nat
  waitingForTask : Bool
  wantRead : Bool
deriving DecidableEq, Repr

structure Buffer where
  owner : Nat
  bytes : Bytes
deriving DecidableEq, Repr

structure Server where
  cookies : Int → Option Cookie
  queue : WorkQueue Nat Buffer
  /-- The tasks the workers have popped and not yet pushed a result for. -/
  working : List (Task Nat Buffer)
  accepted : Nat
  /-- The buffers given to a connection's batch, and that connection. -/
  sent : List (Buffer × Nat)

inductive Request where
  | incomplete
  | stats (mode : Nat) (allocated closes : Bool)
  | fullscrape (tasktype : Nat) (allocated : Bool)
  | other (closes : Bool)
deriving DecidableEq, Repr

inductive NetEvent where
  | accept (sock : Int) (prepared : Bool)
  | read (sock : Int) (request : Request)
  | eof (sock : Int)
  | write (sock : Int) (progress : Bool)
  | timeout (sock : Int)
  | poptask (tasktype : Nat)
  | pushresult (worker : Nat) (result : List Bytes)
  | popresult (allocated closes : Bool)
deriving DecidableEq, Repr

namespace Server

def initial : Server := ⟨fun _ => none, .initial, [], 0, []⟩

def ioClose (server : Server) (sock : Int) : Server :=
  { server with cookies := Function.update server.cookies sock none }

def ioSetcookie (server : Server) (sock : Int) (cookie : Cookie) : Server :=
  { server with cookies := Function.update server.cookies sock (some cookie) }

/-- `handle_accept` for one accepted socket; `prepared` when `io_fd` and the cookie's
allocation succeed. -/
def handleAccept (server : Server) (sock : Int) (prepared : Bool) : Server :=
  let number := server.accepted
  let server := { server with accepted := number + 1 }
  if prepared then server.ioSetcookie sock ⟨number, false, true⟩ else server.ioClose sock

def handleDead (server : Server) (sock : Int) : Server :=
  match server.cookies sock with
  | none => server.ioClose sock
  | some cookie =>
    let server := if cookie.waitingForTask then { server with queue := server.queue.canceltask sock } else server
    server.ioClose sock

/-- `http_senddata`; `closes` when the whole reply was written, writing failed or there
is no memory for the rest. -/
def httpSenddata (server : Server) (sock : Int) (closes : Bool) : Server :=
  match server.cookies sock with
  | none => server.ioClose sock
  | some cookie => if closes then server.ioClose sock else server.ioSetcookie sock { cookie with wantRead := false }

/-- `http_handle_stats`: the expensive statistics are left to a worker, the others are
answered at once. -/
def httpHandleStats (server : Server) (sock : Int) (cookie : Cookie) (mode : Nat) (allocated closes : Bool) : Server :=
  if mode &&& taskClassMask = taskStats then
    { server with queue := (server.queue.pushtask allocated cookie.connection sock mode).1 }
  else server.httpSenddata sock closes

def httpHandleFullscrape (server : Server) (sock : Int) (cookie : Cookie) (tasktype : Nat) (allocated : Bool) : Server :=
  let server := { server with queue := (server.queue.pushtask allocated cookie.connection sock tasktype).1 }
  server.ioSetcookie sock { cookie with waitingForTask := true, wantRead := false }

def handleRead (server : Server) (sock : Int) (request : Request) : Server :=
  match server.cookies sock with
  | none => server
  | some cookie =>
    match request with
    | .incomplete => server
    | .stats mode allocated closes => server.httpHandleStats sock cookie mode allocated closes
    | .fullscrape tasktype allocated => server.httpHandleFullscrape sock cookie tasktype allocated
    | .other closes => server.httpSenddata sock closes

/-- `http_sendiovecdata`. An empty result and a missing header are answered with an
error instead. -/
def httpSendiovecdata (server : Server) (sock : Int) (iovec : List Buffer) (allocated closes : Bool) : Server :=
  match server.cookies sock with
  | none => server.httpSenddata sock closes
  | some cookie =>
    let server := server.ioSetcookie sock { cookie with waitingForTask := false }
    if iovec = [] ∨ allocated = false then server.httpSenddata sock closes
    else
      let server := server.ioSetcookie sock { cookie with waitingForTask := false, wantRead := false }
      { server with sent := server.sent ++ iovec.map fun buffer => (buffer, cookie.connection) }

/-- One turn of the main loop's `while( ( sock = mutex_workqueue_popresult( .. ) ) != -1 )`. -/
def sendResult (server : Server) (allocated closes : Bool) : Server :=
  match server.queue.popresult with
  | (_, none) => server
  | (queue, some task) =>
    let server := { server with queue := queue }
    if task.sock = -1 then server else server.httpSendiovecdata task.sock task.iovec allocated closes

def poptask (server : Server) (tasktype : Nat) : Server :=
  match server.queue.poptask tasktype with
  | (queue, none) => { server with queue := queue }
  | (queue, some task) => { server with queue := queue, working := server.working ++ [task] }

def pushresult (server : Server) (worker : Nat) (result : List Bytes) : Server :=
  match server.working[worker]? with
  | none => server
  | some task =>
    { server with
      queue := (server.queue.pushresult task.taskid (result.map fun bytes => ⟨task.tag, bytes⟩)).1
      working := server.working.eraseIdx worker }

def apply (server : Server) : NetEvent → Server
  | .accept sock prepared => server.handleAccept sock prepared
  | .read sock request => server.handleRead sock request
  | .eof sock => server.handleDead sock
  | .write sock progress => if progress then server else server.handleDead sock
  | .timeout sock => server.handleDead sock
  | .poptask tasktype => server.poptask tasktype
  | .pushresult worker result => server.pushresult worker result
  | .popresult allocated closes => server.sendResult allocated closes

/-- What the kernel and the event loop can report: a new socket has a number that is
not in use, and only a socket that is wanted is readable. -/
def Possible (server : Server) : NetEvent → Prop
  | .accept sock _ => 0 ≤ sock ∧ server.cookies sock = none
  | .read sock _ | .eof sock => ∃ cookie, server.cookies sock = some cookie ∧ cookie.wantRead = true
  | .write .. | .timeout .. | .poptask .. | .pushresult .. | .popresult .. => True

def Step (before : Server) (event : NetEvent) (after : Server) : Prop :=
  before.Possible event ∧ before.apply event = after

end Server

end BtServer
