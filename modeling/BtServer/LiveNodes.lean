import BtServer.LiveSync
import BtServer.Tracker

/-! Two trackers built with `WANT_SYNC_LIVE`: what an announce and a stop do there, the
loop of `livesync_worker` that handles the other tracker's packets, and the steps the
two of them take, in any order. Peers have IPv4 addresses. -/

namespace BtServer
open Lib

def otClientSyncRenewBoundary : Nat := 10
def peerFlagFromSync : UInt8 := 0x10

inductive LiveProto where
  | client (proto : Proto)
  | mca
deriving DecidableEq, Repr

/-- `announcePeer` with what it is that `livesync_tell` is called with. -/
def announcePeerLive (proto : LiveProto) (heap : Heap) (now : Int) (peerList : PeerList) (peer : Peer) :
    PeerList × Option (List StatsEvent × Option Peer) :=
  let peerList := { peerList with base := now }
  match vectorFindOrInsertPeer heap peerList.peers peer with
  | (_, none) => (peerList, none)
  | (_, some (peers, position, exactmatch)) =>
    let fresh := { peer with time := 0, flag := sanitizeFlag peer.flag }
    let dest := peers.bucketFor peer
    if exactmatch = 0 then
      let told := if proto = .mca then none else some fresh
      let fresh := if proto = .mca then { fresh with flag := fresh.flag ||| peerFlagFromSync } else fresh
      ({ peerList with
          peerCount := peerList.peerCount + 1
          downCount := if fresh.completed then incSize peerList.downCount else peerList.downCount
          seedCount := if fresh.seeding then peerList.seedCount + 1 else peerList.seedCount
          peers := peers.setBucketFor peer ⟨dest.data.set position fresh, dest.space⟩ },
        some (if fresh.completed then [.completed] else [], told))
    else match dest.data[position]? with
      | none => (peerList, none)
      | some old =>
        let counted := !old.completed && fresh.completed
        -- A renewal is only told when the peer did not come back too fast.
        let told := if proto ≠ .mca ∧ (old.time.toNat > otClientSyncRenewBoundary ∨ counted) then some fresh else none
        let seedCount := if old.seeding && !fresh.seeding then subSize peerList.seedCount 1 else peerList.seedCount
        let seedCount := if !old.seeding && fresh.seeding then seedCount + 1 else seedCount
        let kept := if old.completed then { fresh with flag := fresh.flag ||| peerFlagCompleted } else fresh
        ({ peerList with
            downCount := if counted then incSize peerList.downCount else peerList.downCount
            seedCount := seedCount
            peers := peers.setBucketFor peer ⟨dest.data.set position kept, dest.space⟩ },
          some (.renew old.time.toNat :: if counted then [.completed] else [], told))

structure LiveServed extends Served where
  told : Option Peer

/-- `add_peer_to_torrent_and_return_peers`. There is no reply to the live sync. -/
def addPeerToTorrentLive (tracker : Tracker) (heap : Heap) (now : Int) (random : List Nat) (proto : LiveProto)
    (hash : Hash) (peer : Peer) (amount : Nat) : Tracker × Option LiveServed :=
  let bucket := bucketOfHash hash
  let reply := fun (peerList : PeerList) =>
    match proto with
    | .client proto => returnPeersForTorrent random peerList amount proto
    | .mca => none
  let finish := fun (torrents : OtVector Torrent) (position : Nat) (heap : Heap) (peerList : PeerList) (delta : Int) =>
    let (peerList, issued) := announcePeerLive proto heap now peerList peer
    (tracker.unlock bucket ⟨torrents.data.set position ⟨hash, some peerList⟩, torrents.space⟩ delta,
      issued.map fun issued => LiveServed.mk ⟨peerList, issued.1, reply peerList⟩ issued.2)
  match vectorFindOrInsert heap (tracker.allTorrents bucket) ⟨hash, none⟩ Torrent.bytes with
  | (_, none) => (tracker.unlock bucket (tracker.allTorrents bucket) 0, none)
  | (heap, some (torrents, position, exactmatch)) =>
    if exactmatch = 0 then
      match allocate heap with
      | (false, _) => (tracker.unlock bucket (vectorRemoveTorrent torrents position) 0, none)
      | (true, heap) => finish torrents position heap .zero 1
    else match torrents.data[position]?.bind Torrent.peerList with
      | none => (tracker.unlock bucket torrents 0, none)
      | some peerList =>
        let (heap, peerList, _) := cleanSingleTorrent heap now peerList
        finish torrents position heap peerList 0

def Peer.bytes (peer : Peer) : Bytes := peer.addr ++ [peer.flag, peer.time]

def syncRecord (hash : Hash) (peer : Peer) : SyncRecord 4 := ⟨hash, readBytes (otPeerSize 4) peer.bytes 0⟩

def SyncRecord.toPeer (record : SyncRecord 4) : Peer :=
  let bytes := record.peer.toList
  ⟨readBytes 4 bytes 0, readBytes 2 bytes 4, bytes.getD 6 0, bytes.getD 7 0⟩

namespace Tracker

/-- A client's call, or one of the cleaner, with the record that `livesync_tell` appends. -/
def applyLive (tracker : Tracker) (event : Event) : Tracker × Option (SyncRecord 4) :=
  match event.call with
  | .announce proto hash peer amount random =>
    let (tracker, served) := addPeerToTorrentLive tracker event.heap event.now random (.client proto) hash peer amount
    (tracker, (served.bind LiveServed.told).map (syncRecord hash))
  | .stop _ hash peer _ =>
    (tracker.apply event, some (syncRecord hash { peer with flag := peer.flag ||| peerFlagStopped }))
  | _ => (tracker.apply event, none)

/-- One turn of the loop of `livesync_handle_peersync`; `false` when the peer of the
record was to be stored and could not be. -/
def handleRecord (tracker : Tracker) (heap : Heap) (gNowSeconds : Int) (record : SyncRecord 4) : Tracker × Bool :=
  let peer := record.toPeer
  if peer.flag &&& peerFlagStopped ≠ 0 then ((removePeerFromTorrent tracker [] .udp record.hash peer).1, true)
  else
    let (tracker, served) := addPeerToTorrentLive tracker heap (gNowMinutes gNowSeconds) [] .mca record.hash peer 0
    (tracker, served.isSome)

end Tracker

/-- The loop of `livesync_worker`: the records of a packet that are going to be handled. -/
def livesyncWorker (gTrackerId : Vector UInt8 4) (packet : Bytes) : List (SyncRecord 4) :=
  if packet.length ≤ livesyncHeaderSize then []
  else if packet.take 4 = gTrackerId.toList then []
  else if bigEndian ((packet.drop 4).take 4) = otSyncPeer then livesyncHandlePeersync 4 packet
  else []

/-- A tracker with its live sync, the number of packets it has received and what is
left to handle of the last one. -/
structure LiveNode where
  gTrackerId : Vector UInt8 4
  tracker : Tracker
  wire : LiveWire
  received : Nat
  inbox : List (SyncRecord 4)

inductive Site where
  | a
  | b
deriving DecidableEq, Repr

def Site.other : Site → Site
  | .a => .b
  | .b => .a

/-- The two trackers and the time, and a log of what has happened: the records each of
them has told and when, those it has handled, and its clients' announces. -/
structure LivePair where
  node : Site → LiveNode
  gNowSeconds : Int
  told : Site → List (Int × SyncRecord 4)
  handled : Site → List (SyncRecord 4)
  announced : Site → List (Int × Hash × Bytes)

inductive NodeCall where
  | client (heap : Heap) (call : Call)
  | ticker
  | receive
  | handle (heap : Heap)

structure LiveEvent where
  gNowSeconds : Int
  site : Site
  call : NodeCall

def Call.announces (gNowSeconds : Int) : Call → List (Int × Hash × Bytes)
  | .announce _ hash peer _ _ => [(gNowSeconds, hash, peer.addr)]
  | _ => []

namespace LivePair

def initial (gTrackerId : Site → Vector UInt8 4) (start : Int) : LivePair where
  node site := ⟨gTrackerId site, .initial, ⟨livesyncInit (gTrackerId site) start, []⟩, 0, []⟩
  gNowSeconds := start
  told _ := []
  handled _ := []
  announced _ := []

def client (pair : LivePair) (site : Site) (heap : Heap) (call : Call) : LivePair :=
  let node := pair.node site
  let (tracker, record) := node.tracker.applyLive ⟨pair.gNowSeconds, heap, call⟩
  let wire := record.toList.foldl (fun wire record => wire.next (.tell pair.gNowSeconds record)) node.wire
  { pair with
    node := Function.update pair.node site { node with tracker := tracker, wire := wire }
    told := Function.update pair.told site (pair.told site ++ record.toList.map fun record => (pair.gNowSeconds, record))
    announced := Function.update pair.announced site (pair.announced site ++ call.announces pair.gNowSeconds) }

def ticker (pair : LivePair) (site : Site) : LivePair :=
  let node := pair.node site
  let wire := node.wire.next (.ticker pair.gNowSeconds : LiveCall 4)
  { pair with node := Function.update pair.node site { node with wire := wire } }

/-- The worker's thread asks for the next packet when it is done with the last one. -/
def receive (pair : LivePair) (site : Site) : LivePair :=
  let node := pair.node site
  match node.inbox, (pair.node site.other).wire.sent[node.received]? with
  | [], some packet =>
    let node := { node with received := node.received + 1, inbox := livesyncWorker node.gTrackerId packet }
    { pair with node := Function.update pair.node site node }
  | _, _ => pair

def handle (pair : LivePair) (site : Site) (heap : Heap) : LivePair :=
  let node := pair.node site
  match node.inbox with
  | [] => pair
  | record :: rest =>
    let tracker := (node.tracker.handleRecord heap pair.gNowSeconds record).1
    { pair with
      node := Function.update pair.node site { node with tracker := tracker, inbox := rest }
      handled := Function.update pair.handled site (pair.handled site ++ [record]) }

def next (pair : LivePair) (event : LiveEvent) : LivePair :=
  let pair := { pair with gNowSeconds := event.gNowSeconds }
  match event.call with
  | .client heap call => pair.client event.site heap call
  | .ticker => pair.ticker event.site
  | .receive => pair.receive event.site
  | .handle heap => pair.handle event.site heap

def Step (before : LivePair) (event : LiveEvent) (after : LivePair) : Prop := before.next event = after

end LivePair

end BtServer
