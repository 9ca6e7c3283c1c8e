import BtServer.Announce

/-! The UDP server around `handle_udp6` of `ot_udp.c`: receiving into `ws->inbuf`,
making connection ids with the keys of the hour, and the datagram that is sent.
Every worker has a buffer of its own; the keys and the store are shared. -/

namespace BtServer
open Lib

def gInbufSize : Nat := 8192

/-- The bytes a call leaves in the reply buffer; `none` when the reply is never
finished. -/
def Tracker.answer (tracker : Tracker) (event : Event) : Option Bytes :=
  match event.call with
  | .announce proto hash peer amount random =>
    match (addPeerToTorrentAndReturnPeers tracker event.heap event.now random proto hash peer amount).2 with
    | none => some []
    | some served => served.reply.map Reply.bytes
  | .stop proto hash peer random => some (removePeerFromTorrent tracker random proto hash peer).2
  | .udpScrape hash => some (returnUdpScrapeForTorrent tracker event.heap event.now hash).2
  | .tcpScrape hashes => some (returnTcpScrapeForTorrent tracker event.heap event.now hashes).2
  | .savedState .. | .clean _ => some []

/-- Calls made one after the other: their replies in a row and the store they leave. -/
def Tracker.serve (gNowSeconds : Int) (heaps : Nat → Heap) : Tracker → (made : Nat) → List Call → Option (Bytes × Tracker)
  | tracker, _, [] => some ([], tracker)
  | tracker, made, call :: rest => do
    let event : Event := ⟨gNowSeconds, heaps made, call⟩
    let answer ← tracker.answer event
    let (answers, tracker) ← Tracker.serve gNowSeconds heaps (tracker.apply event) (made + 1) rest
    some (answer ++ answers, tracker)

/-- The datagram an outcome sends, if any, and the store it leaves. -/
def UdpOutcome.serve (outcome : UdpOutcome) (gNowSeconds : Int) (heaps : Nat → Heap) (tracker : Tracker) :
    Option (Option Bytes × Tracker) :=
  match outcome with
  | .ignored => some (none, tracker)
  | .reply bytes => some (some bytes, tracker)
  | .calls header made => do
    let (answers, tracker) ← tracker.serve gNowSeconds heaps 0 made
    some (some (header ++ answers), tracker)

inductive Received where
  | error
  | packet (bytes : Bytes) (remoteip : Ip6)
deriving DecidableEq, Repr

namespace Received

/-- `byte_count`, the `size_t` that takes the result of `socket_recv6`. -/
def byteCount : Received → Nat
  | error => 2 ^ 64 - 1
  | packet bytes _ => (bytes.take gInbufSize).length

def fill (inbuf : Bytes) : Received → Bytes
  | error => inbuf
  | packet bytes _ => overwrite inbuf 0 (bytes.take gInbufSize)

/-- An error leaves `remoteip` as it was on the stack. -/
def sender (unset : Ip6) : Received → Ip6
  | error => unset
  | packet _ remoteip => remoteip

end Received

structure UdpKeys where
  rijndaelRoundKey : Vector UInt32 44
  keyOfTheHour : Vector UInt32 2
  hourOfTheKey : Int
deriving DecidableEq, Repr

def word (value : UInt32) : Bytes := toLittleEndian 4 value.toNat

/-- An address whose four words are combined with a key. -/
def plain (remoteip : Ip6) (key : UInt32) : Ip6 :=
  Vector.ofFn fun i => remoteip[i] ^^^ (word key).getD (i.val % 4) 0

structure UdpServer where
  keys : UdpKeys
  inbuf : (worker : Nat) → Bytes
  tracker : Tracker

/-- One turn of a worker: the clock, what it receives, what its stack held in
`remoteip`, and what `random` and the allocations are going to return. -/
structure UdpTurn where
  worker : Nat
  gNowSeconds : Int
  received : Received
  unset : Ip6
  age : UInt8
  keyRandom : Vector UInt32 2
  random : List Nat
  heaps : Nat → Heap

namespace UdpTurn

def now (turn : UdpTurn) : Int := gNowMinutes turn.gNowSeconds

def remoteip (turn : UdpTurn) : Ip6 := turn.received.sender turn.unset

end UdpTurn

section Serving
variable (rijndaelEncrypt128 : Vector UInt32 44 → Ip6 → Vector UInt32 4)

/-- `udp_make_connectionid`: the keys it leaves and `connid`. -/
def udpMakeConnectionid (keys : UdpKeys) (gNowMinutes : Int) (random : UInt32) (remoteip : Ip6) (age : Fin 2) :
    UdpKeys × Bytes :=
  let keys :=
    if gNowMinutes + 60 > keys.hourOfTheKey then
      { keys with
        hourOfTheKey := gNowMinutes
        keyOfTheHour := (keys.keyOfTheHour.set 1 keys.keyOfTheHour[0]).set 0 random }
    else keys
  -- The address with the key is made, but it is the bare address that is encrypted.
  let _plain := plain remoteip keys.keyOfTheHour[age]
  let crypt := rijndaelEncrypt128 keys.rijndaelRoundKey remoteip
  (keys, word (crypt[0] ^^^ crypt[1]) ++ word (crypt[2] ^^^ crypt[3]))

/-- `handle_udp6`: the server it leaves and the datagram it sends, if any. -/
def UdpServer.handle (server : UdpServer) (turn : UdpTurn) : Option (UdpServer × Option Bytes) := do
  let inbuf := turn.received.fill (server.inbuf turn.worker)
  let byteCount := turn.received.byteCount
  let action := bigEndian (inpacket inbuf 2)
  let (keys, current) := udpMakeConnectionid rijndaelEncrypt128 server.keys turn.now turn.keyRandom[0] turn.remoteip 0
  let (older, previous) := udpMakeConnectionid rijndaelEncrypt128 keys turn.now turn.keyRandom[1] turn.remoteip 1
  let connid := fun age => if age = 0 then current else previous
  let outcome := handleUdp6 turn.random connid turn.remoteip turn.age inbuf byteCount
  let (sent, tracker) ← outcome.serve turn.gNowSeconds turn.heaps server.tracker
  -- The keys are touched once the packet has an action, and again for an id that is not the current one.
  let keys :=
    if byteCount < 16 ∨ action > 2 then server.keys
    else if action > 0 ∧ inbuf.take 8 ≠ current then older
    else keys
  some (⟨keys, Function.update server.inbuf turn.worker inbuf, tracker⟩, sent)

def UdpServer.Step (before : UdpServer) (turn : UdpTurn) (after : UdpServer) : Prop :=
  ∃ sent, before.handle rijndaelEncrypt128 turn = some (after, sent)

end Serving

end BtServer
