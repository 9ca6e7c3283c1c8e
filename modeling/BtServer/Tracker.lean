import BtServer.Clean
import BtServer.Reply
import BtServer.Lib.Run

/-! The tracker's store, `trackerlogic.c` and the torrent table of `ot_mutex.c`.
Every operation holds the lock of its torrent bucket from its first access to
its last, so it is one step here. In the default build `accesslist_hashisvalid`
is the constant 1 and nothing is told to the live sync. -/

namespace BtServer
open Lib

structure Torrent where
  hash : Hash
  peerList : Option PeerList
deriving DecidableEq, Repr

namespace Torrent

def bytes (torrent : Torrent) : Bytes := torrent.hash.toList

end Torrent

def otBucketCountBits : Nat := 10
def otBucketCountShift : Nat := 32 - otBucketCountBits

/-- `uint32_read_big( hash ) >> OT_BUCKET_COUNT_SHIFT`. -/
def bucketOfHash (hash : Hash) : Nat := bigEndian (hash.toList.take 4) / 2 ^ otBucketCountShift

structure Tracker where
  allTorrents : Nat → OtVector Torrent
  torrentCount : Nat

namespace Tracker

def initial : Tracker := ⟨fun _ => .empty, 0⟩

/-- `mutex_bucket_unlock` after the bucket's vector became `torrents`. -/
def unlock (tracker : Tracker) (bucket : Nat) (torrents : OtVector Torrent) (delta : Int) : Tracker :=
  ⟨Function.update tracker.allTorrents bucket torrents, ((tracker.torrentCount + delta) % 2 ^ 64).toNat⟩

end Tracker

/-- The events of `ot_stats.h` that are counted. -/
inductive StatsEvent where
  | accept (proto : Proto)
  | connect
  | announce (proto : Proto)
  | completed
  | renew (index : Nat)
  | sync (count : Nat)
  | scrape (proto : Proto)
  | failed (code : Nat)
deriving DecidableEq, Repr

/-- `stats_issue_event`, as far as it goes for `ot_overall_completed`. -/
def statsIssueEvent (otOverallCompleted : Nat) : StatsEvent → Nat
  | .completed => incSize otOverallCompleted
  | _ => otOverallCompleted

def sanitizeFlag (flag : UInt8) : UInt8 :=
  if flag &&& (peerFlagCompleted ||| peerFlagSeeding) = peerFlagCompleted then flag ^^^ peerFlagCompleted else flag

/-- The part of an announce that works on the torrent's peer list: from setting
its base to copying the peer into its slot. `none` when there is no slot for it. -/
def announcePeer (heap : Heap) (now : Int) (peerList : PeerList) (peer : Peer) : PeerList × Option (List StatsEvent) :=
  let peerList := { peerList with base := now }
  match vectorFindOrInsertPeer heap peerList.peers peer with
  | (_, none) => (peerList, none)
  | (_, some (peers, position, exactmatch)) =>
    let fresh := { peer with time := 0, flag := sanitizeFlag peer.flag }
    let dest := peers.bucketFor peer
    if exactmatch = 0 then
      ({ peerList with
          peerCount := peerList.peerCount + 1
          downCount := if fresh.completed then incSize peerList.downCount else peerList.downCount
          seedCount := if fresh.seeding then peerList.seedCount + 1 else peerList.seedCount
          peers := peers.setBucketFor peer ⟨dest.data.set position fresh, dest.space⟩ },
        some (if fresh.completed then [.completed] else []))
    else match dest.data[position]? with
      | none => (peerList, none)
      | some old =>
        let seedCount := if old.seeding && !fresh.seeding then subSize peerList.seedCount 1 else peerList.seedCount
        let seedCount := if !old.seeding && fresh.seeding then seedCount + 1 else seedCount
        let counted := !old.completed && fresh.completed
        let kept := if old.completed then { fresh with flag := fresh.flag ||| peerFlagCompleted } else fresh
        ({ peerList with
            downCount := if counted then incSize peerList.downCount else peerList.downCount
            seedCount := seedCount
            peers := peers.setBucketFor peer ⟨dest.data.set position kept, dest.space⟩ },
          some (.renew old.time.toNat :: if counted then [.completed] else []))

structure Served where
  peerList : PeerList
  events : List StatsEvent
  reply : Option Reply

/-- `add_peer_to_torrent_and_return_peers`; `none` when an allocation failed. -/
def addPeerToTorrentAndReturnPeers (tracker : Tracker) (heap : Heap) (now : Int) (random : List Nat)
    (proto : Proto) (hash : Hash) (peer : Peer) (amount : Nat) : Tracker × Option Served :=
  let bucket := bucketOfHash hash
  let finish := fun (torrents : OtVector Torrent) (position : Nat) (heap : Heap) (peerList : PeerList) (delta : Int) =>
    let (peerList, issued) := announcePeer heap now peerList peer
    (tracker.unlock bucket ⟨torrents.data.set position ⟨hash, some peerList⟩, torrents.space⟩ delta,
      issued.map fun events => Served.mk peerList events (returnPeersForTorrent random peerList amount proto))
  match vectorFindOrInsert heap (tracker.allTorrents bucket) ⟨hash, none⟩ Torrent.bytes with
  | (_, none) => (tracker.unlock bucket (tracker.allTorrents bucket) 0, none)
  | (heap, some (torrents, position, exactmatch)) =>
    if exactmatch = 0 then
      match allocate heap with
      | (false, _) => (tracker.unlock bucket (vectorRemoveTorrent torrents position) 0, none)
      | (true, heap) => finish torrents position heap .zero 1
    else match torrents.data[position]?.bind Torrent.peerList with
      | none => (tracker.unlock bucket torrents 0, none)
      | some peerList =>
        let (heap, peerList, _) := cleanSingleTorrent heap now peerList
        finish torrents position heap peerList 0

def stopPeer (peerList : PeerList) (peer : Peer) : PeerList :=
  let (peers, removed) := vectorRemovePeer peerList.peers peer
  { peerList with
    seedCount := if removed = 2 then subSize peerList.seedCount 1 else peerList.seedCount
    peerCount := if removed = 0 then peerList.peerCount else subSize peerList.peerCount 1
    peers := peers }

/-- The reply to a stop. Over UDP it is what follows the eight bytes of action
and transaction id. -/
def stopReply (random : List Nat) (proto : Proto) (peerList : PeerList) : Bytes :=
  let erval := otClientRequestIntervalRandom (draw random).1
  let incomplete := subSize peerList.peerCount peerList.seedCount
  match proto with
  | .tcp =>
    ascii "d8:completei" ++ sizeDecimal peerList.seedCount ++ ascii "e10:incompletei" ++ sizeDecimal incomplete ++
    ascii "e8:intervali" ++ decimal erval ++ ascii "e12:min intervali" ++ decimal (erval / 2) ++ ascii "e5:peers0:e"
  | .udp => htonl erval ++ htonl incomplete ++ htonl peerList.seedCount

/-- `remove_peer_from_torrent`, which replies from `dummy_list` when there is no
such torrent. -/
def removePeerFromTorrent (tracker : Tracker) (random : List Nat) (proto : Proto) (hash : Hash) (peer : Peer) :
    Tracker × Bytes :=
  let bucket := bucketOfHash hash
  let torrents := tracker.allTorrents bucket
  let (position, exactmatch) := binarySearch hash.toList Torrent.bytes torrents.data
  let found := if exactmatch = 0 then none else torrents.data[position]?.bind Torrent.peerList
  match found with
  | none => (tracker.unlock bucket torrents 0, stopReply random proto .zero)
  | some peerList =>
    let peerList := stopPeer peerList peer
    (tracker.unlock bucket ⟨torrents.data.set position ⟨hash, some peerList⟩, torrents.space⟩ 0,
      stopReply random proto peerList)

/-- The step the UDP and the TCP scrape share: find the torrent, clean it and
remove it when it timed out. The counts are those of the torrent that is left. -/
def scrapeTorrent (tracker : Tracker) (heap : Heap) (now : Int) (hash : Hash) : Tracker × Heap × Option PeerList :=
  let bucket := bucketOfHash hash
  let torrents := tracker.allTorrents bucket
  let (position, exactmatch) := binarySearch hash.toList Torrent.bytes torrents.data
  let found := if exactmatch = 0 then none else torrents.data[position]?.bind Torrent.peerList
  match found with
  | none => (tracker.unlock bucket torrents 0, heap, none)
  | some peerList =>
    let (heap, peerList, timedOut) := cleanSingleTorrent heap now peerList
    let torrents : OtVector Torrent := ⟨torrents.data.set position ⟨hash, some peerList⟩, torrents.space⟩
    if timedOut then (tracker.unlock bucket (vectorRemoveTorrent torrents position) (-1), heap, none)
    else (tracker.unlock bucket torrents 0, heap, some peerList)

/-- `return_udp_scrape_for_torrent`: the new store and the 12 bytes of the record. -/
def returnUdpScrapeForTorrent (tracker : Tracker) (heap : Heap) (now : Int) (hash : Hash) : Tracker × Bytes :=
  match scrapeTorrent tracker heap now hash with
  | (tracker, _, none) => (tracker, List.replicate 12 0)
  | (tracker, _, some peerList) =>
    (tracker, htonl peerList.seedCount ++ htonl peerList.downCount ++
      htonl (subSize peerList.peerCount peerList.seedCount))

def scrapeTorrents (now : Int) : Tracker → Heap → List Hash → Tracker × Bytes
  | tracker, _, [] => (tracker, [])
  | tracker, heap, hash :: rest =>
    let (tracker, heap, found) := scrapeTorrent tracker heap now hash
    let entry := match found with
      | none => []
      | some peerList =>
        ascii "20:" ++ hash.toList ++ ascii "d8:completei" ++ sizeDecimal peerList.seedCount ++
        ascii "e10:downloadedi" ++ sizeDecimal peerList.downCount ++ ascii "e10:incompletei" ++
        sizeDecimal (subSize peerList.peerCount peerList.seedCount) ++ ascii "ee"
    let (tracker, entries) := scrapeTorrents now tracker heap rest
    (tracker, entry ++ entries)

def returnTcpScrapeForTorrent (tracker : Tracker) (heap : Heap) (now : Int) (hashes : List Hash) : Tracker × Bytes :=
  let (tracker, entries) := scrapeTorrents now tracker heap hashes
  (tracker, ascii "d5:filesd" ++ entries ++ ascii "ee")

def addTorrentFromSavedState (tracker : Tracker) (heap : Heap) (hash : Hash) (base : Int) (downCount : Nat) : Tracker :=
  let bucket := bucketOfHash hash
  match vectorFindOrInsert heap (tracker.allTorrents bucket) ⟨hash, none⟩ Torrent.bytes with
  | (_, none) => tracker.unlock bucket (tracker.allTorrents bucket) 0
  | (heap, some (torrents, position, exactmatch)) =>
    if exactmatch ≠ 0 then tracker.unlock bucket torrents 0
    else match allocate heap with
      | (false, _) => tracker.unlock bucket (vectorRemoveTorrent torrents position) 0
      | (true, _) =>
        tracker.unlock bucket
          ⟨torrents.data.set position ⟨hash, some { PeerList.zero with base := base, downCount := downCount }⟩,
            torrents.space⟩ 1

/-- The loop of `clean_worker` over the torrents of one bucket: the vector that is
left and the number of torrents removed. -/
def cleanTorrents (now : Int) : (fuel : Nat) → Heap → OtVector Torrent → (toffs removed : Nat) → OtVector Torrent × Nat
  | 0, _, torrents, _, removed => (torrents, removed)
  | fuel + 1, heap, torrents, toffs, removed =>
    match torrents.data[toffs]? with
    | none => (torrents, removed)
    | some torrent =>
      match torrent.peerList with
      | none => cleanTorrents now fuel heap torrents (toffs + 1) removed
      | some peerList =>
        let (heap, peerList, timedOut) := cleanSingleTorrent heap now peerList
        let torrents : OtVector Torrent := ⟨torrents.data.set toffs ⟨torrent.hash, some peerList⟩, torrents.space⟩
        if timedOut then cleanTorrents now fuel heap (vectorRemoveTorrent torrents toffs) toffs (removed + 1)
        else cleanTorrents now fuel heap torrents (toffs + 1) removed

def cleanWorker (tracker : Tracker) (heap : Heap) (now : Int) (bucket : Nat) : Tracker :=
  let torrents := tracker.allTorrents bucket
  let (torrents, removed) := cleanTorrents now torrents.size heap torrents 0 0
  tracker.unlock bucket torrents (-removed)

def gNowMinutes (gNowSeconds : Int) : Int := gNowSeconds.tdiv 60

inductive Call where
  | announce (proto : Proto) (hash : Hash) (peer : Peer) (amount : Nat) (random : List Nat)
  | stop (proto : Proto) (hash : Hash) (peer : Peer) (random : List Nat)
  | udpScrape (hash : Hash)
  | tcpScrape (hashes : List Hash)
  | savedState (hash : Hash) (base : Int) (downCount : Nat)
  | clean (bucket : Nat)
deriving DecidableEq

/-- A call, the clock it reads and the outcomes of its allocations. -/
structure Event where
  gNowSeconds : Int
  heap : Heap
  call : Call

def Event.now (event : Event) : Int := gNowMinutes event.gNowSeconds

namespace Tracker

def served (tracker : Tracker) (event : Event) : Option Served :=
  match event.call with
  | .announce proto hash peer amount random =>
    (addPeerToTorrentAndReturnPeers tracker event.heap event.now random proto hash peer amount).2
  | _ => none

def apply (tracker : Tracker) (event : Event) : Tracker :=
  match event.call with
  | .announce proto hash peer amount random =>
    (addPeerToTorrentAndReturnPeers tracker event.heap event.now random proto hash peer amount).1
  | .stop proto hash peer random => (removePeerFromTorrent tracker random proto hash peer).1
  | .udpScrape hash => (returnUdpScrapeForTorrent tracker event.heap event.now hash).1
  | .tcpScrape hashes => (returnTcpScrapeForTorrent tracker event.heap event.now hashes).1
  | .savedState hash base downCount => addTorrentFromSavedState tracker event.heap hash base downCount
  | .clean bucket => cleanWorker tracker event.heap event.now bucket

def Step (before : Tracker) (event : Event) (after : Tracker) : Prop := before.apply event = after

end Tracker

end BtServer
