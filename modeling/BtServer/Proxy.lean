import BtServer.Lib.Buffer
import BtServer.StreamSync
import Mathlib.Logic.Function.Basic

/-! The connections of a proxy to its peers, the event handlers of `proxy.c`. The state
of an entry of `g_connections` has the phase of the handshake in its low bits and in
`FLAG_OUTGOING` whether the entry was configured. What the calls on sockets return is
given with the events. -/

namespace BtServer
open Lib

abbrev maxPeers : Nat := 20

def flagOutgoing : UInt8 := 0x80
def flagDisconnected : UInt8 := 0x00
def flagConnecting : UInt8 := 0x01
def flagWaittrackerid : UInt8 := 0x02
def flagConnected : UInt8 := 0x03
def flagMask : UInt8 := 0x07

def setPhase (state phase : UInt8) : UInt8 := state &&& flagOutgoing ||| phase

structure ProxyPeer where
  state : UInt8
  trackerId : UInt32
  fd : Int
  incoming : Incoming
deriving DecidableEq, Repr

namespace ProxyPeer

def phase (peer : ProxyPeer) : UInt8 := peer.state &&& flagMask

def needsConnect (peer : ProxyPeer) : Prop := peer.state = flagOutgoing

def isConnected (peer : ProxyPeer) : Prop := peer.phase = flagConnected

instance (peer : ProxyPeer) : Decidable peer.needsConnect := inferInstanceAs (Decidable (_ = _))

instance (peer : ProxyPeer) : Decidable peer.isConnected := inferInstanceAs (Decidable (_ = _))

def resetInfoBlock (peer : ProxyPeer) : ProxyPeer :=
  ⟨setPhase peer.state flagDisconnected, 0, -1, { peer.incoming with indata := [], packetTcount := 0 }⟩

end ProxyPeer

/-- What the event loop knows of a socket: its cookie and the events it waits for. -/
structure Socket where
  peer : Fin maxPeers
  wantRead : Bool
  wantWrite : Bool
deriving DecidableEq, Repr

structure Proxy where
  gTrackerId : UInt32
  gConnectionCount : Nat
  gConnections : Fin maxPeers → ProxyPeer
  sockets : Int → Option Socket

/-- How far connecting to a peer gets. -/
inductive Connecting where
  | noSocket
  | bindFails (newfd : Int)
  | connectFails (newfd : Int)
  | begun (newfd : Int)
deriving DecidableEq, Repr

/-- What `io_tryread` finds: some bytes, of which it takes as many as there is room for,
or none at the end of the stream. -/
inductive TryRead where
  | data (bytes : Bytes)
  | again
  | failed
deriving DecidableEq, Repr

inductive IobSend where
  | all
  | more
  | failed
deriving DecidableEq, Repr

/-- What becomes of the four bytes a peer greets with. -/
inductive Greeting where
  | incomplete
  | duplicate
  | soliloquy
  | unanswered
  | accepted (trackerId : UInt32)
deriving DecidableEq, Repr

inductive ProxyEvent where
  | reconnects (outcomes : Fin maxPeers → Connecting)
  | accept (arrivals : List (Int × Bool))
  | read (sock : Int) (outcome : TryRead) (written : Bool)
  | write (sock : Int) (connected written : Bool) (sent : IobSend)

namespace Proxy

def start (gTrackerId : UInt32) (count : Nat) : Proxy where
  gTrackerId := gTrackerId
  gConnectionCount := count
  gConnections i := ⟨if i.val < count then flagOutgoing else flagDisconnected, 0, 0, .initial⟩
  sockets _ := none

def setPeer (proxy : Proxy) (i : Fin maxPeers) (peer : ProxyPeer) : Proxy :=
  { proxy with gConnections := Function.update proxy.gConnections i peer }

def setSocket (proxy : Proxy) (sock : Int) (socket : Option Socket) : Proxy :=
  { proxy with sockets := Function.update proxy.sockets sock socket }

def ioClose (proxy : Proxy) (sock : Int) : Proxy := proxy.setSocket sock none

def prepare (proxy : Proxy) (i : Fin maxPeers) (newfd : Int) : Proxy :=
  let reset := (proxy.gConnections i).resetInfoBlock
  proxy.setPeer i { reset with fd := newfd, state := setPhase reset.state flagConnecting }

def reconnect (proxy : Proxy) (i : Fin maxPeers) (outcome : Connecting) : Proxy :=
  if i.val < proxy.gConnectionCount ∧ (proxy.gConnections i).needsConnect then
    match outcome with
    | .noSocket | .connectFails _ => proxy
    | .bindFails newfd => proxy.ioClose newfd
    | .begun newfd => (proxy.setSocket newfd (some ⟨i, false, true⟩)).prepare i newfd
  else proxy

def handleReconnects (proxy : Proxy) (outcomes : Fin maxPeers → Connecting) : Proxy :=
  (List.finRange maxPeers).foldl (fun proxy i => proxy.reconnect i (outcomes i)) proxy

def freeSlot (proxy : Proxy) : Option (Fin maxPeers) :=
  (List.finRange maxPeers).find? fun i => (proxy.gConnections i).state = flagDisconnected

/-- A turn of the loop of `handle_accept`; `registered` is what `io_fd` returns. -/
def acceptOne (proxy : Proxy) (newfd : Int) (registered : Bool) : Proxy :=
  if registered then
    match proxy.freeSlot with
    | none => proxy
    | some i => (proxy.setSocket newfd (some ⟨i, true, false⟩)).prepare i newfd
  else proxy.ioClose newfd

def handleAccept (proxy : Proxy) (arrivals : List (Int × Bool)) : Proxy :=
  arrivals.foldl (fun proxy arrival => proxy.acceptOne arrival.1 arrival.2) proxy

/-- The `tracker_id` that is read, when its four bytes come at once. -/
def readTrackerId : TryRead → Option UInt32
  | .data bytes => if 4 ≤ bytes.length then some (littleEndian (bytes.take 4)).toUInt32 else none
  | .again | .failed => none

def alreadyConnected (proxy : Proxy) (trackerId : UInt32) : Prop :=
  ∃ i, (proxy.gConnections i).isConnected ∧ (proxy.gConnections i).trackerId = trackerId

instance (proxy : Proxy) (trackerId : UInt32) : Decidable (proxy.alreadyConnected trackerId) :=
  inferInstanceAs (Decidable (∃ _, _))

/-- Our own id is sent on incoming connections; `written` when all of it is. -/
def greeting (proxy : Proxy) (peer : ProxyPeer) (outcome : TryRead) (written : Bool) : Greeting :=
  match readTrackerId outcome with
  | none => .incomplete
  | some trackerId =>
    if proxy.alreadyConnected trackerId then .duplicate
    else if trackerId = proxy.gTrackerId then .soliloquy
    else if peer.state = flagConnecting ∧ !written then .unanswered
    else .accepted trackerId

def closePeer (proxy : Proxy) (sock : Int) (i : Fin maxPeers) : Proxy :=
  (proxy.ioClose sock).setPeer i (proxy.gConnections i).resetInfoBlock

/-- `handle_read` of a connected peer. -/
def readIndata (proxy : Proxy) (sock : Int) (i : Fin maxPeers) (outcome : TryRead) : Proxy :=
  let peer := proxy.gConnections i
  match outcome with
  | .again => proxy
  | .failed => proxy.closePeer sock i
  | .data bytes =>
    let read := bytes.take (indataSize - peer.incoming.indata.length)
    if read = [] then proxy.closePeer sock i
    else
      let processed := processIndata { peer.incoming with indata := peer.incoming.indata ++ read }
      proxy.setPeer i { peer with incoming := processed.incoming }

def handleRead (proxy : Proxy) (sock : Int) (outcome : TryRead) (written : Bool) : Proxy :=
  match proxy.sockets sock with
  | none => proxy.ioClose sock
  | some socket =>
    let peer := proxy.gConnections socket.peer
    if peer.phase = flagDisconnected then proxy.ioClose sock
    else if peer.phase = flagConnecting ∨ peer.phase = flagWaittrackerid then
      match proxy.greeting peer outcome written with
      | .accepted trackerId =>
        proxy.setPeer socket.peer { peer with trackerId := trackerId, state := setPhase peer.state flagConnected }
      | .incomplete | .duplicate | .soliloquy | .unanswered => proxy.closePeer sock socket.peer
    else if peer.phase = flagConnected then proxy.readIndata sock socket.peer outcome
    else proxy

/-- `connected` is what `socket_connected` finds, `written` when all of our id is, and
`sent` what `iob_send` returns. -/
def handleWrite (proxy : Proxy) (sock : Int) (connected written : Bool) (sent : IobSend) : Proxy :=
  match proxy.sockets sock with
  | none => proxy.ioClose sock
  | some socket =>
    let peer := proxy.gConnections socket.peer
    if peer.phase = flagConnecting then
      if peer.state &&& flagOutgoing ≠ 0 ∧ !connected then proxy.closePeer sock socket.peer
      else if written then
        (proxy.setSocket sock (some { socket with wantRead := true, wantWrite := false })).setPeer socket.peer
          { peer with state := setPhase peer.state flagWaittrackerid }
      else proxy.closePeer sock socket.peer
    else if peer.phase = flagConnected then
      match sent with
      | .all => proxy.setSocket sock (some { socket with wantWrite := false })
      | .more => proxy
      | .failed => proxy.closePeer sock socket.peer
    else proxy.ioClose sock

def handle (proxy : Proxy) : ProxyEvent → Proxy
  | .reconnects outcomes => proxy.handleReconnects outcomes
  | .accept arrivals => proxy.handleAccept arrivals
  | .read sock outcome written => proxy.handleRead sock outcome written
  | .write sock connected written sent => proxy.handleWrite sock connected written sent

def Step (before : Proxy) (event : ProxyEvent) (after : Proxy) : Prop := after = before.handle event

end Proxy

end BtServer
