import BtServer.PeerList

/-! Ageing of peers, `ot_clean.c`. Both scan modes of a bucket write into its one array, and the removed
seeders of all buckets are counted in one `int`. -/

namespace BtServer
open Lib

def toByte (time : Int) : UInt8 := UInt8.ofNat (time % 256).toNat

def increment (count : Int) : Int := (count + 1).bmod (2 ^ 32)

/-- Assignment to `OT_PEERTIME( peer )`, a byte. -/
def setPeertime (peer : Peer) (time : Int) : Peer := { peer with time := toByte time }

/-- The first scan mode: ages are increased in place up to a peer that has to go. There are `left`
cells from `peers` to `last_peer`. -/
def increaseAges (timedout : Int) : (left : Nat) → (array : List Peer) → (peers : Nat) → List Peer × Nat
  | 0, array, peers => (array, peers)
  | left + 1, array, peers =>
    match array[peers]? with
    | none => (array, peers)
    | some peer =>
      let timediff := timedout + peer.time.toNat
      if timediff ≥ otPeerTimeout then (array, peers)
      else increaseAges timedout left (array.set peers (setPeertime peer timediff)) (peers + 1)

/-- The second scan mode: the array, `insert_point`, `peers` and `removed_seeders` at its end. -/
def copyPeers (timedout : Int) : (left : Nat) → (array : List Peer) → (insertPoint peers : Nat) →
    (removedSeeders : Int) → List Peer × Nat × Nat × Int
  | 0, array, insertPoint, peers, removedSeeders => (array, insertPoint, peers, removedSeeders)
  | left + 1, array, insertPoint, peers, removedSeeders =>
    match array[peers]? with
    | none => (array, insertPoint, peers, removedSeeders)
    | some peer =>
      let timediff := timedout + peer.time.toNat
      if timediff < otPeerTimeout then
        let aged := setPeertime peer timediff
        copyPeers timedout left ((array.set peers aged).set insertPoint aged) (insertPoint + 1) (peers + 1) removedSeeders
      else
        copyPeers timedout left array insertPoint (peers + 1) (if peer.seeding then increment removedSeeders else removedSeeders)

/-- `clean_single_bucket`: the array, the returned difference and `removed_seeders`. -/
def cleanSingleBucket (array : List Peer) (timedout : Int) (removedSeeders : Int) : List Peer × Int × Int :=
  let scanned := increaseAges timedout array.length array 0
  let copied := copyPeers timedout (array.length - scanned.2) scanned.1 scanned.2 scanned.2 removedSeeders
  (copied.1, (copied.2.2.1 : Int) - copied.2.1, copied.2.2.2)

/-- The loop over `bucket_list`: the cleaned buckets, all removed peers and `removed_seeders`. -/
def cleanBuckets (timedout : Int) : List (OtVector Peer) → (removedSeeders : Int) → List (OtVector Peer) × Nat × Int
  | [], removedSeeders => ([], 0, removedSeeders)
  | vector :: rest, removedSeeders =>
    let (array, removedPeers, removedSeeders) := cleanSingleBucket vector.data timedout removedSeeders
    let removedPeers := removedPeers.toNat
    let cleaned : OtVector Peer := ⟨array.take (vector.size - removedPeers), vector.space⟩
    let cleaned := if cleaned.size < removedPeers then vectorFixupPeers cleaned else cleaned
    let (others, removedOthers, removedSeeders) := cleanBuckets timedout rest removedSeeders
    (cleaned :: others, removedPeers + removedOthers, removedSeeders)

def otPeerBucketMincount : Nat := 512

/-- An `int` is converted to a `size_t` before it is subtracted from one. -/
def subInt (value : Nat) (n : Int) : Nat := ((value - n) % 2 ^ 64).toNat

/-- `clean_single_torrent` at minute `now`; `true` when the torrent timed out. -/
def cleanSingleTorrent (heap : Heap) (now : Int) (peerList : PeerList) : Heap × PeerList × Bool :=
  let timedout := now - peerList.base
  if timedout = 0 then (heap, peerList, false)
  else if timedout > otTorrentTimeout then (heap, peerList, true)
  else if timedout > otPeerTimeout ∧ peerList.peerCount = 0 then (heap, peerList, peerList.downCount = 0)
  else
    let timedout := min timedout otPeerTimeout
    let (vectors, removedPeers, removedSeeders) := cleanBuckets timedout peerList.peers.bucketList 0
    let cleaned : PeerList :=
      { peerList with
        peerCount := subSize peerList.peerCount removedPeers
        seedCount := subInt peerList.seedCount removedSeeders
        peers := peerList.peers.setBucketList vectors }
    let (heap, cleaned) :=
      if cleaned.peerCount > otPeerBucketMincount ∨ cleaned.peers.hasBuckets then
        vectorRedistributeBuckets heap cleaned
      else (heap, cleaned)
    (heap, { cleaned with base := if cleaned.peerCount ≠ 0 then now else now - otPeerTimeout }, false)

end BtServer
