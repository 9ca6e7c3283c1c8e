import BtServer.Tracker

/-! The stream of torrents that proxies send each other, `streamsync_worker` and
`process_indata` of `proxy.c`. A bucket of torrents becomes up to three blocks, each
with a header of four bytes: its type, the first byte of all its hashes and the
number of its torrents. -/

namespace BtServer
open Lib

def otIpSize : Nat := 4

/-- `OT_IP_SIZE + 3`: the bytes of a peer up to its flags. -/
def peerSize : Nat := otIpSize + 3

def peerBytes (peer : Peer) : Bytes := peer.ip.toList ++ peer.port.toList ++ [peer.flag]

/-- The `peer_count` peers at `peers.data`, which the proxy never splits into buckets. -/
def plainPeers (peerList : PeerList) : List Peer :=
  match peerList.peers.data with
  | .members stored => stored.take peerList.peerCount
  | .buckets _ => []

/-- A peer count in groups of seven bits, the low ones first. A `size_t` has ten. -/
def writeCount : (fuel count : Nat) → Bytes
  | 0, _ => []
  | fuel + 1, count =>
    if count = 0 then []
    else (if count ≤ 0x7f then count else 0x80 ||| (count &&& 0x7f)).toUInt8 :: writeCount fuel (count >>> 7)

/-- What is written through `ptr_a`, `ptr_b` and `ptr_c`. -/
structure SyncBlocks where
  one : Bytes
  two : Bytes
  many : Bytes
deriving DecidableEq, Repr

def blockHeader (type : UInt8) (bucket count : Nat) : Bytes :=
  [type, (bucket * 2 ^ 8 / 2 ^ otBucketCountBits).toUInt8, (count / 256).toUInt8, (count % 256).toUInt8]

def putTorrent (blockOne blockTwo : Bool) (blocks : SyncBlocks) (torrent : Torrent) : SyncBlocks :=
  let peerList := torrent.peerList.getD .zero
  let tail := torrent.hash.toList.drop 1
  let peers := (plainPeers peerList).flatMap peerBytes
  let many := { blocks with many := blocks.many ++ tail ++ writeCount 10 peerList.peerCount ++ peers }
  match peerList.peerCount with
  | 0 => blocks
  | 1 => if blockOne then { blocks with one := blocks.one ++ tail ++ peers } else many
  | 2 => if blockTwo then { blocks with two := blocks.two ++ tail ++ peers } else many
  | _ => many

def countPeers (torrents : List Torrent) (wanted : Nat → Bool) : Nat :=
  torrents.countP fun torrent => wanted (torrent.peerList.getD .zero).peerCount

/-- What `streamsync_worker` sends for the torrents of a bucket. -/
def streamsyncBucket (bucket : Nat) (torrents : List Torrent) : Bytes :=
  if torrents = [] then []
  else
    let countOne := countPeers torrents (· = 1)
    let countTwo := countPeers torrents (· = 2)
    let countDef := countPeers torrents (2 < ·)
    let blockOne : Bool := countOne > 4 ∨ countDef = 0
    let countDef := if blockOne then countDef else countDef + countOne
    let blockTwo : Bool := countTwo > 4 ∨ countDef = 0
    let countDef := if blockTwo then countDef else countDef + countTwo
    let start : SyncBlocks :=
      ⟨if blockOne then blockHeader 1 bucket countOne else [], if blockTwo then blockHeader 2 bucket countTwo else [],
        if countDef = 0 then [] else blockHeader 0 bucket countDef⟩
    let blocks := torrents.foldl (putTorrent blockOne blockTwo) start
    blocks.one ++ blocks.two ++ blocks.many

/-- A call of `livesync_proxytell`: the hash and the peer that are put together. -/
structure Tell where
  hash : Bytes
  peer : Bytes
deriving DecidableEq, Repr

/-- What `proxy_peer` keeps of the stream between reads. -/
structure Incoming where
  indata : Bytes
  packetTcount : Nat
  packetTprefix : UInt8
  packetType : UInt8
deriving DecidableEq, Repr

def Incoming.initial : Incoming := ⟨[], 0, 0, 0⟩

/-- The peer count of a type 0 block and what follows it, at most seven groups. From
the fifth group on the shift is undefined in the source. -/
def readCount : (shift : Nat) → Bytes → Nat × Bytes
  | _, [] => (0, [])
  | shift, byte :: rest =>
    let group := (byte &&& 0x7f).toNat <<< (7 * shift)
    if byte &&& 0x80 ≠ 0 ∧ shift < 6 then
      let (more, rest) := readCount (shift + 1) rest
      (group ||| more, rest)
    else (group, rest)

/-- Inside of a packet, or at the header of a new one when it is complete. -/
def readHeader (incoming : Incoming) : Option Incoming :=
  if incoming.packetTcount ≠ 0 then some incoming
  else match incoming.indata with
    | type :: tprefix :: high :: low :: rest => some ⟨rest, high.toNat * 256 + low.toNat, tprefix, type⟩
    | _ => none

/-- A turn of the loop of `process_indata`: it is left to wait for more data, or a
torrent's peers are told. `wrapped` when `packet_tcount` was 0 before it was decreased. -/
inductive IndataTurn where
  | postponed (incoming : Incoming)
  | told (incoming : Incoming) (tells : List Tell) (wrapped : Bool)
deriving DecidableEq, Repr

def processTurn (incoming : Incoming) : IndataTurn :=
  match readHeader incoming with
  | none => .postponed incoming
  | some incoming =>
    if incoming.indata.length < 20 + peerSize then .postponed incoming
    else
      let hash := incoming.packetTprefix :: incoming.indata.take 19
      let (peers, data) :=
        if incoming.packetType = 0 then readCount 0 (incoming.indata.drop 19)
        else (incoming.packetType.toNat, incoming.indata.drop 19)
      if data.length < peerSize * peers then .postponed incoming
      else
        .told { incoming with indata := data.drop (peerSize * peers), packetTcount := subSize incoming.packetTcount 1 }
          ((List.range peers).map fun i => ⟨hash, (data.drop (peerSize * i)).take peerSize⟩)
          (incoming.packetTcount = 0)

structure Processed where
  incoming : Incoming
  tells : List Tell
  wrapped : Bool
deriving DecidableEq, Repr

/-- Every turn but the last takes bytes from the front of the data, so its length is
fuel enough. -/
def processLoop : (fuel : Nat) → Incoming → Processed
  | 0, incoming => ⟨incoming, [], false⟩
  | fuel + 1, incoming =>
    match processTurn incoming with
    | .postponed incoming => ⟨incoming, [], false⟩
    | .told incoming tells wrapped =>
      let rest := processLoop fuel incoming
      ⟨rest.incoming, tells ++ rest.tells, wrapped || rest.wrapped⟩

def processIndata (incoming : Incoming) : Processed := processLoop (incoming.indata.length + 1) incoming

def indataSize : Nat := 8192 * 16

/-- `handle_read` reads no more than there is room for behind the data that is left. -/
def Fitting : Incoming → List Bytes → Prop
  | _, [] => True
  | incoming, read :: rest =>
    read ≠ [] ∧ incoming.indata.length + read.length ≤ indataSize ∧
      Fitting (processIndata { incoming with indata := incoming.indata ++ read }).incoming rest

def feed : Incoming → List Bytes → Processed
  | incoming, [] => ⟨incoming, [], false⟩
  | incoming, read :: rest =>
    let first := processIndata { incoming with indata := incoming.indata ++ read }
    let later := feed first.incoming rest
    ⟨later.incoming, first.tells ++ later.tells, first.wrapped || later.wrapped⟩

end BtServer
