import BtServer.BucketLocks

/-! The peer store of the sync proxy, `add_peer_to_torrent_proxy` and
`remove_peer_from_torrent_proxy` of `proxy.c`. It works on the torrent table and the
bucket locks of `ot_mutex.c`; its peer vectors are never split into buckets, because
nothing ages them. -/

namespace BtServer
open Lib

structure ProxyStore where
  tracker : Tracker
  bucketLocklist : List Nat

namespace ProxyStore

def initial : ProxyStore := ⟨.initial, []⟩

/-- `mutex_bucket_lock`; `none` when the calls made so far left the bucket locked and
the thread waits for ever. -/
def lock (store : ProxyStore) (bucket : Nat) : Option ProxyStore :=
  if bucketCheck store.bucketLocklist bucket ≠ 0 then none
  else some { store with bucketLocklist := bucketPush store.bucketLocklist bucket }

def unlock (store : ProxyStore) (bucket : Nat) (torrents : OtVector Torrent) : ProxyStore :=
  ⟨store.tracker.unlock bucket torrents 0, bucketRemove store.bucketLocklist bucket⟩

end ProxyStore

/-- The part of `add_peer_to_torrent_proxy` that works on the torrent's peer list. -/
def addPeerToList (heap : Heap) (peerList : PeerList) (peer : Peer) : PeerList × Int :=
  match vectorFindOrInsertPeer heap peerList.peers peer with
  | (_, none) => (peerList, -1)
  | (_, some (peers, position, exactmatch)) =>
    let peer := { peer with time := 0 }
    let dest := peers.bucketFor peer
    ({ peerList with
        peerCount := if exactmatch = 0 then peerList.peerCount + 1 else peerList.peerCount
        seedCount := if exactmatch = 0 ∧ peer.seeding then peerList.seedCount + 1 else peerList.seedCount
        peers := peers.setBucketFor peer ⟨dest.data.set position peer, dest.space⟩ }, 0)

/-- `add_peer_to_torrent_proxy` and what it returns. Without a slot for the torrent it
returns with the bucket locked. -/
def addPeerToTorrentProxy (store : ProxyStore) (heap : Heap) (hash : Hash) (peer : Peer) : Option (ProxyStore × Int) :=
  let bucket := bucketOfHash hash
  (store.lock bucket).map fun store =>
    let finish := fun (torrents : OtVector Torrent) (position : Nat) (heap : Heap) (peerList : PeerList) =>
      let (peerList, returned) := addPeerToList heap peerList peer
      (store.unlock bucket ⟨torrents.data.set position ⟨hash, some peerList⟩, torrents.space⟩, returned)
    match vectorFindOrInsert heap (store.tracker.allTorrents bucket) ⟨hash, none⟩ Torrent.bytes with
    | (_, none) => (store, -1)
    | (heap, some (torrents, position, exactmatch)) =>
      if exactmatch = 0 then
        match allocate heap with
        | (false, _) => (store.unlock bucket (vectorRemoveTorrent torrents position), -1)
        | (true, heap) => finish torrents position heap .zero
      else match torrents.data[position]?.bind Torrent.peerList with
        | none => (store.unlock bucket torrents, -1)
        | some peerList => finish torrents position heap peerList

def removePeerFromTorrentProxy (store : ProxyStore) (hash : Hash) (peer : Peer) : Option (ProxyStore × Int) :=
  let bucket := bucketOfHash hash
  (store.lock bucket).map fun store =>
    let torrents := store.tracker.allTorrents bucket
    let (position, exactmatch) := binarySearch hash.toList Torrent.bytes torrents.data
    let found := if exactmatch = 0 then none else torrents.data[position]?.bind Torrent.peerList
    match found with
    | none => (store.unlock bucket torrents, 0)
    | some peerList =>
      (store.unlock bucket ⟨torrents.data.set position ⟨hash, some (stopPeer peerList peer)⟩, torrents.space⟩, 0)

inductive ProxyCall where
  | add (hash : Hash) (peer : Peer) (heap : Heap)
  | remove (hash : Hash) (peer : Peer)

namespace ProxyStore

def call (store : ProxyStore) : ProxyCall → Option (ProxyStore × Int)
  | .add hash peer heap => addPeerToTorrentProxy store heap hash peer
  | .remove hash peer => removePeerFromTorrentProxy store hash peer

/-- A call that returns. -/
def Step (before : ProxyStore) (call : ProxyCall) (after : ProxyStore) : Prop :=
  ∃ returned, before.call call = some (after, returned)

end ProxyStore

end BtServer
