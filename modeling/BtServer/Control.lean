import BtServer.Lib.Framing
import BtServer.Lib.Run
import BtServer.Packet
import Mathlib.Data.Finset.Basic

/-! The control server, `tcp_loop` and `process_msg` of `main.c`. One step is one turn
of the loop; what the kernel answers and what a request makes its handler do are
part of the step. -/

namespace BtServer
open Lib

inductive BtCmd where
  | setTracker
  | addTask
  | delTask
  | makeTorrent
  | getTaskState
deriving DecidableEq, Repr

/-- The service codes that `process_msg` knows. -/
def BtCmd.ofOrder : Nat → Option BtCmd
  | 2002 => some .setTracker
  | 2003 => some .addTask
  | 2004 => some .delTask
  | 2005 => some .makeTorrent
  | 2006 => some .getTaskState
  | _ => none

/-- What a handler finds: whether the body is JSON, whether it has the members the
handler needs, whether what it calls succeeds, and the id of a new task. `stale` is
the value of a `ret` that was never assigned. -/
structure Handling where
  parsed : Bool
  found : Bool
  succeeded : Bool
  torrentId : Int64
  stale : Int

/-- Never assigned anything else. -/
def runFlag : Int := 0

def recvGetTaskState (cli : Client) (handling : Handling) (sends : List Send) : Client × Sending :=
  if runFlag = 0 then
    if handling.parsed then sendTaskState cli .zero sends else sendCode cli (-1) sends
  else sendCode cli (-1) sends

def recvMakeTorrent (cli : Client) (handling : Handling) (sends : List Send) : Client × Sending :=
  if handling.parsed then
    if handling.succeeded then sendCode cli 0 sends else sendCode cli (-1) sends
  else sendCode cli (-1) sends

def recvDelTask (cli : Client) (handling : Handling) (sends : List Send) : Client × Sending :=
  if handling.parsed then
    if handling.stale = success then sendCode cli 0 sends else sendCode cli (-1) sends
  else sendCode cli (-1) sends

def recvAddTask (cli : Client) (handling : Handling) (sends : List Send) : Client × Sending :=
  if handling.parsed then
    if handling.found then sendAddTask cli handling.torrentId sends else sendCode cli (-1) sends
  else sendCode cli (-1) sends

def recvSetTracker (cli : Client) (handling : Handling) (sends : List Send) : Client × Sending :=
  if handling.parsed then sendCode cli 0 sends else sendCode cli (-1) sends

/-- `process_msg`. An order it does not know is not answered. -/
def processMsg (cli : Client) (handling : Handling) (sends : List Send) : Client × Sending :=
  match BtCmd.ofOrder (readPacketOrder cli.packet) with
  | some .setTracker => recvSetTracker cli handling sends
  | some .addTask => recvAddTask cli handling sends
  | some .delTask => recvDelTask cli handling sends
  | some .makeTorrent => recvMakeTorrent cli handling sends
  | some .getTaskState => recvGetTaskState cli handling sends
  | none => (cli, ⟨[], handling.stale, sends⟩)

/-- Memory that nothing was written to: the heap behind the body of a request, and what
a `ret` on the stack begins with. -/
structure Memory where
  heap : Bytes
  stack : Int
deriving DecidableEq, Repr

/-- The text at `data_buf`. The buffer is one byte longer than the body, but only as many
bytes as the body has are set, so the text may go on behind it. -/
def bodyText (body heap : Bytes) : Bytes := (body ++ heap).takeWhile (· ≠ 0)

structure Findings where
  parsed : Bool
  found : Bool
  succeeded : Bool
  torrentId : Int64
deriving DecidableEq, Repr

/-- What `process_msg` gets to do for a request, with this memory around it. -/
def Memory.handling (memory : Memory) (find : BtCmd → Bytes → Findings) (packet body : Bytes) : Handling :=
  match BtCmd.ofOrder (readPacketOrder packet) with
  | none => ⟨false, false, false, 0, memory.stack⟩
  | some cmd =>
    let findings := find cmd (bodyText body memory.heap)
    ⟨findings.parsed, findings.found, findings.succeeded, findings.torrentId, memory.stack⟩

/-- What `recv` does: it delivers at least one byte, sees the end of the stream, has
to be called again (`EINTR`, `EAGAIN`), or fails. -/
inductive Recv where
  | data (first : UInt8) (more : Bytes)
  | eof
  | again
  | failed
deriving DecidableEq, Repr

/-- The answers to what is called while one client is visited. -/
structure Service where
  head : Recv
  allocated : Bool
  body : Recv
  handling : Handling
  sends : List Send

abbrev Frame : Type := Bytes × Bytes

/-- `data_size` of a header, an `int` computed from unsigned numbers. -/
def frameSize (packet : Bytes) : Int := toInt32 ((readPacketSize packet + readPacketToken packet) % 2 ^ 32)

/-- Where the code for a client goes: on, to the next client, or through
`close_client` to the next client. -/
inductive Pass where
  | go (cli : Client)
  | wait (cli : Client)
  | close
deriving DecidableEq, Repr

namespace Client

def new (connection : Nat) (fd : Int) : Client :=
  ⟨connection, fd, List.replicate packetLen 0, none, 0, false, none, 0, packetLen⟩

/-- The part for `has_read_head == 0`, and the bytes it takes from the stream. -/
def readHead (cli : Client) (head : Recv) (allocated : Bool) : Pass × Bytes :=
  match head with
  | .eof | .failed => (.close, [])
  | .again => (.wait cli, [])
  | .data first more =>
    let data := (first :: more).take (packetLen - cli.pos)
    let cli := { cli with packet := overwrite cli.packet cli.pos data, pos := cli.pos + data.length }
    if cli.pos ≠ packetLen then (.wait cli, data)
    else
      let cli := { cli with hasReadHead := true, dataSize := frameSize cli.packet, pos := 0 }
      if (0 : Int) ≤ cli.dataSize ∧ cli.dataSize < (clientBuf : Int) then
        if allocated then (.go { cli with dataBuf := some (List.replicate cli.dataSize.toNat 0) }, data)
        else (.close, data)
      else (.close, data)

/-- The `recv` of the part for `has_read_head == 1`. The end of the stream is not
noticed here. -/
def readBody (cli : Client) (body : Recv) : Pass × Bytes :=
  if cli.pos < cli.dataSize then
    match body with
    | .failed => (.close, [])
    | .again => (.wait cli, [])
    | .eof => (.go cli, [])
    | .data first more =>
      let data := (first :: more).take (cli.dataSize - cli.pos).toNat
      (.go { cli with dataBuf := cli.dataBuf.map (overwrite · cli.pos data), pos := cli.pos + data.length }, data)
  else (.go cli, [])

def frame (cli : Client) : Frame := (cli.packet, cli.dataBuf.getD [])

def rewind (cli : Client) : Client :=
  { cli with
    packet := List.replicate packetLen 0
    dataSize := packetLen
    pos := 0
    dataBuf := none
    hasReadHead := false }

def finish (cli : Client) (handling : Handling) (sends : List Send) : Pass × List Frame × Bytes :=
  if cli.pos = cli.dataSize then
    let (answered, sending) := processMsg cli handling sends
    if sending.ret ≠ 0 then (.close, [cli.frame], sending.written)
    else (.go answered.rewind, [cli.frame], sending.written)
  else if cli.pos > cli.dataSize then (.close, [], [])
  else (.go cli, [], [])

end Client

/-- How a client was served: the bytes taken from its stream, the request given to
`process_msg` and the bytes written. -/
structure Visit where
  pass : Pass
  taken : Bytes
  handed : List Frame
  written : Bytes
deriving DecidableEq, Repr

def Client.serveBody (cli : Client) (service : Service) : Visit :=
  match cli.readBody service.body with
  | (.go cli, taken) =>
    let (pass, handed, written) := cli.finish service.handling service.sends
    ⟨pass, taken, handed, written⟩
  | (pass, taken) => ⟨pass, taken, [], []⟩

/-- The body of `if(FD_ISSET(sockfd, &reset))`. -/
def Client.serve (cli : Client) (service : Service) : Visit :=
  if cli.hasReadHead then cli.serveBody service
  else
    match cli.readHead service.head service.allocated with
    | (.go cli, taken) =>
      let visit := cli.serveBody service
      { visit with taken := taken ++ visit.taken }
    | (pass, taken) => ⟨pass, taken, [], []⟩

structure Journal where
  received : Bytes
  handed : List Frame
  written : Bytes
deriving DecidableEq, Repr

/-- The variables of `tcp_loop`; the descriptors the thread has open, the number of
connections it has accepted and their journals. -/
structure Loop where
  listenfd : Int
  pipefd : Int
  clients : List (Option Client)
  maxi : Nat
  maxfd : Int
  allset : Finset Int
  totalConnections : Int
  running : Bool
  opened : Finset Int
  accepted : Nat
  journal : Nat → Journal

/-- What comes of `accept` and of what follows it up to `inet_ntop`. -/
inductive Accept where
  | failed
  | noClient (connfd : Int)
  | unprepared (connfd : Int)
  | connected (connfd : Int)
deriving DecidableEq, Repr

/-- `select`: interrupted, failed for good, or the descriptors left in `reset` and
`nready`. With `EBADF` these are all descriptors and -1. -/
inductive Select where
  | interrupted
  | failed
  | ready (reset : Finset Int) (nready : Int)

structure Turn where
  select : Select
  pipe : Bytes
  accept : Accept
  serve : Nat → Service

def maxConnections : Nat := 1024

namespace Loop

def initial (listenfd pipefd : Int) : Loop where
  listenfd := listenfd
  pipefd := pipefd
  clients := List.replicate maxConnections none
  maxi := 0
  maxfd := max (max 0 listenfd) pipefd
  allset := {listenfd, pipefd}
  totalConnections := 0
  running := true
  opened := {listenfd, pipefd}
  accepted := 0
  journal := fun _ => ⟨[], [], []⟩

/-- `close_fd`, and `close` in `close_client`: descriptor 0 is not closed. -/
def closeFd (loop : Loop) (fd : Int) : Loop :=
  { loop with opened := if fd ≠ 0 then loop.opened.erase fd else loop.opened }

/-- The loop over `clients[]` after `accept`, which is left after its first turn, and
the index it is left with. -/
def storeClient (cli : Client) : List (Option Client) → List (Option Client) × Nat
  | none :: rest => (some cli :: rest, 0)
  | clients => (clients, 0)

def addClient (loop : Loop) (connfd : Int) : Loop :=
  let (clients, i) := storeClient (.new loop.accepted connfd) loop.clients
  { loop with
    allset := insert connfd loop.allset
    clients := clients
    totalConnections := loop.totalConnections + 1
    maxi := if i > loop.maxi then i else loop.maxi
    maxfd := if connfd > loop.maxfd then connfd else loop.maxfd
    accepted := loop.accepted + 1 }

/-- The part for `FD_ISSET(listenfd, &reset)`, and whether it was gone through. -/
def acceptClient (loop : Loop) : Accept → Loop × Bool
  | .failed => (loop, false)
  | .noClient connfd => ({ loop with opened := insert connfd loop.opened }, false)
  | .unprepared connfd => ({ loop with opened := insert connfd loop.opened }.closeFd connfd, false)
  | .connected connfd => ({ loop with opened := insert connfd loop.opened }.addClient connfd, true)

def record (loop : Loop) (connection : Nat) (visit : Visit) : Loop :=
  let entry := loop.journal connection
  { loop with
    journal := Function.update loop.journal connection
      ⟨entry.received ++ visit.taken, entry.handed ++ visit.handed, entry.written ++ visit.written⟩ }

def setClient (loop : Loop) (i : Nat) (cli : Client) : Loop := { loop with clients := loop.clients.set i (some cli) }

def dropClient (loop : Loop) (i : Nat) (cli : Client) : Loop :=
  { loop with
    allset := loop.allset.erase cli.fd
    clients := loop.clients.set i none
    totalConnections := loop.totalConnections - 1 }.closeFd cli.fd

def serveClient (loop : Loop) (i : Nat) (cli : Client) (service : Service) : Loop × Bool :=
  let visit := cli.serve service
  let loop := loop.record cli.connection visit
  match visit.pass with
  | .go cli => (loop.setClient i cli, true)
  | .wait cli => (loop.setClient i cli, false)
  | .close => (loop.dropClient i cli, false)

def clientMessages (reset : Finset Int) (serve : Nat → Service) : List Nat → Int → Loop → Loop
  | [], _, loop => loop
  | i :: rest, nready, loop =>
    match loop.clients[i]? with
    | some (some cli) =>
      if cli.fd < 0 ∨ cli.fd ∉ reset then clientMessages reset serve rest nready loop
      else
        let (loop, reached) := loop.serveClient i cli (serve i)
        if reached then
          if nready - 1 ≤ 0 then loop else clientMessages reset serve rest (nready - 1) loop
        else clientMessages reset serve rest nready loop
    | _ => clientMessages reset serve rest nready loop

def turnReady (loop : Loop) (turn : Turn) (reset : Finset Int) (nready : Int) : Loop :=
  if loop.listenfd ∈ reset then
    let (loop, through) := loop.acceptClient turn.accept
    if through = false ∨ nready - 1 ≤ 0 then loop
    else clientMessages reset turn.serve (List.range (loop.maxi + 1)) (nready - 1) loop
  else clientMessages reset turn.serve (List.range (loop.maxi + 1)) nready loop

def turn (loop : Loop) (turn : Turn) : Loop :=
  match turn.select with
  | .interrupted => loop
  | .failed => { loop with running := false }
  | .ready reset nready =>
    if loop.pipefd ∈ reset then
      if turn.pipe = ascii "S" then { loop with running := false }
      else if nready - 1 ≤ 0 then loop
      else loop.turnReady turn reset (nready - 1)
    else loop.turnReady turn reset nready

/-- What the kernel can answer: only descriptors that were asked for are ready, and a
new descriptor is not one that is open. -/
def Possible (loop : Loop) (turn : Turn) : Prop :=
  loop.running = true ∧
  (∀ reset nready, turn.select = .ready reset nready → reset ⊆ loop.allset ∧ ∀ fd ∈ reset, fd ≤ loop.maxfd) ∧
  match turn.accept with
  | .failed => True
  | .noClient connfd | .unprepared connfd | .connected connfd => 0 ≤ connfd ∧ connfd ∉ loop.opened

instance (loop : Loop) (turn : Turn) : Decidable (loop.Possible turn) :=
  have ready : Decidable (∀ reset nready, turn.select = .ready reset nready →
      reset ⊆ loop.allset ∧ ∀ fd ∈ reset, fd ≤ loop.maxfd) :=
    match turn.select with
    | .interrupted | .failed => isTrue nofun
    | .ready reset nready =>
      decidable_of_iff (reset ⊆ loop.allset ∧ ∀ fd ∈ reset, fd ≤ loop.maxfd)
        ⟨fun asked _ _ same => (Select.ready.inj same).1 ▸ asked, fun asked => asked reset nready rfl⟩
  have accept : Decidable (match turn.accept with
      | .failed => True
      | .noClient connfd | .unprepared connfd | .connected connfd => 0 ≤ connfd ∧ connfd ∉ loop.opened) := by
    cases turn.accept <;> exact inferInstance
  inferInstanceAs (Decidable (_ ∧ _ ∧ _))

def Step (before : Loop) (turn : Turn) (after : Loop) : Prop := before.Possible turn ∧ before.turn turn = after

end Loop

end BtServer
