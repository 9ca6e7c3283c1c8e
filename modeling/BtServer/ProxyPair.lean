import BtServer.Proxy

/-! Two proxies, each configured to connect to the other, and the TCP connections
between them: channels that deliver messages in order and do not fail. A connection's
number stands for its socket on both sides. -/

namespace BtServer
open Lib

inductive Side where
  | left
  | right
deriving DecidableEq, Repr

def Side.other : Side → Side
  | .left => .right
  | .right => .left

/-- A connection: the messages that are on the way to a side, and the sides that have
closed it. -/
structure Link where
  opener : Side
  accepted : Bool
  queue : Side → List Bytes
  closed : Side → Bool

namespace Link

def opened (opener : Side) : Link := ⟨opener, false, fun _ => [], fun _ => false⟩

def push (link : Link) (side : Side) (message : Bytes) : Link :=
  { link with queue := Function.update link.queue side (link.queue side ++ [message]) }

/-- A read of at most `size` bytes, from one message. -/
def pop (link : Link) (side : Side) (size : Nat) : Link :=
  match link.queue side with
  | [] => link
  | message :: rest =>
    let left := message.drop size
    { link with queue := Function.update link.queue side (if left = [] then rest else left :: rest) }

end Link

structure ProxyPair where
  proxy : Side → Proxy
  links : List Link

/-- `sync` is a `handle_write` that sends what `streamsync_worker` has left for a peer. -/
inductive PairEvent where
  | reconnects (side : Side)
  | accept (side : Side) (link : Nat)
  | read (side : Side) (link : Nat)
  | write (side : Side) (link : Nat)
  | sync (side : Side) (link : Nat) (bytes : Bytes)
deriving DecidableEq, Repr

def greetingBytes (proxy : Proxy) : Bytes := toLittleEndian 4 proxy.gTrackerId.toNat

def Greeting.isAccepted : Greeting → Bool
  | .accepted _ => true
  | .incomplete | .duplicate | .soliloquy | .unanswered => false

namespace Proxy

/-- The size that `handle_read` asks `io_tryread` for. -/
def readSize (proxy : Proxy) (sock : Int) : Nat :=
  match proxy.sockets sock with
  | none => 0
  | some socket =>
    let peer := proxy.gConnections socket.peer
    if peer.isConnected then indataSize - peer.incoming.indata.length else 4

/-- What `handle_read` makes of a greeting, when it waits for one. -/
def greetingOn (proxy : Proxy) (sock : Int) (outcome : TryRead) : Option Greeting :=
  match proxy.sockets sock with
  | none => none
  | some socket =>
    let peer := proxy.gConnections socket.peer
    if peer.phase = flagConnecting ∨ peer.phase = flagWaittrackerid then some (proxy.greeting peer outcome true) else none

/-- `handle_read` accepts the greeting and sends ours. -/
def answers (proxy : Proxy) (sock : Int) (outcome : TryRead) : Prop :=
  ∃ socket ∈ proxy.sockets sock, (proxy.gConnections socket.peer).state = flagConnecting ∧
    (proxy.greeting (proxy.gConnections socket.peer) outcome true).isAccepted = true

instance (proxy : Proxy) (sock : Int) (outcome : TryRead) : Decidable (proxy.answers sock outcome) :=
  inferInstanceAs (Decidable (∃ _ ∈ _, _))

end Proxy

namespace ProxyPair

def start (trackerId : Side → UInt32) : ProxyPair := ⟨fun side => .start (trackerId side) 1, []⟩

def handled (pair : ProxyPair) (side : Side) (n : Nat) (proxy : Proxy) (link : Link) : ProxyPair where
  proxy := Function.update pair.proxy side proxy
  links := pair.links.set n { link with closed := Function.update link.closed side (proxy.sockets n = none) }

def Connected (pair : ProxyPair) (side : Side) (n : Nat) : Prop :=
  ∃ socket ∈ (pair.proxy side).sockets n, ((pair.proxy side).gConnections socket.peer).isConnected

instance (pair : ProxyPair) (side : Side) (n : Nat) : Decidable (pair.Connected side n) :=
  inferInstanceAs (Decidable (∃ _ ∈ _, _))

def arriving (link : Link) (side : Side) : TryRead := .data ((link.queue side).headD [])

/-- The event loop calls a handler when its event can happen. -/
def Enabled (pair : ProxyPair) : PairEvent → Prop
  | .reconnects _ => True
  | .accept side n => ∃ link ∈ pair.links[n]?, link.opener ≠ side ∧ link.accepted = false
  | .read side n => ∃ link ∈ pair.links[n]?, ∃ socket ∈ (pair.proxy side).sockets n, socket.wantRead = true ∧
      (link.queue side ≠ [] ∨ link.closed side.other = true)
  | .write side n => ∃ socket ∈ (pair.proxy side).sockets n, socket.wantWrite = true
  | .sync side n bytes => pair.Connected side n ∧ bytes ≠ []

instance (pair : ProxyPair) : (event : PairEvent) → Decidable (pair.Enabled event)
  | .reconnects _ => inferInstanceAs (Decidable True)
  | .accept _ _ | .read _ _ | .write _ _ => inferInstanceAs (Decidable (∃ _ ∈ _, _))
  | .sync _ _ _ => inferInstanceAs (Decidable (_ ∧ _))

def next (pair : ProxyPair) : PairEvent → ProxyPair
  | .reconnects side =>
    let proxy := pair.proxy side
    ⟨Function.update pair.proxy side (proxy.handleReconnects fun _ => .begun pair.links.length),
      if (proxy.gConnections 0).needsConnect then pair.links ++ [.opened side] else pair.links⟩
  | .accept side n =>
    match pair.links[n]? with
    | none => pair
    | some link => pair.handled side n ((pair.proxy side).handleAccept [(n, true)]) { link with accepted := true }
  | .read side n =>
    match pair.links[n]? with
    | none => pair
    | some link =>
      let proxy := pair.proxy side
      let outcome := arriving link side
      let taken := link.pop side (proxy.readSize n)
      pair.handled side n (proxy.handleRead n outcome true)
        (if proxy.answers n outcome then taken.push side.other (greetingBytes proxy) else taken)
  | .write side n =>
    match pair.links[n]? with
    | none => pair
    | some link =>
      let proxy := pair.proxy side
      pair.handled side n (proxy.handleWrite n true true .all) (link.push side.other (greetingBytes proxy))
  | .sync side n bytes =>
    match pair.links[n]? with
    | none => pair
    | some link => pair.handled side n ((pair.proxy side).handleWrite n true true .all) (link.push side.other bytes)

def Step (before : ProxyPair) (event : PairEvent) (after : ProxyPair) : Prop :=
  before.Enabled event ∧ after = before.next event

/-- A side reads a greeting and closes the connection because a peer with that id is
already connected. -/
def ClosesDuplicate (pair : ProxyPair) (side : Side) (n : Nat) : Prop :=
  pair.Enabled (.read side n) ∧
    ∃ link ∈ pair.links[n]?, (pair.proxy side).greetingOn n (arriving link side) = some .duplicate

instance (pair : ProxyPair) (side : Side) (n : Nat) : Decidable (pair.ClosesDuplicate side n) :=
  inferInstanceAs (Decidable (_ ∧ _))

end ProxyPair

end BtServer
