import BtServer.Vector

/-! The peer list of a torrent. Its vector is either a plain vector of peers or,
marked by a size above its space, an array of buckets. Which of the two a block
holds is decided by that mark only; reading a block as the other kind finds
nothing in this model and is undefined in the source. -/

namespace BtServer
open Lib

inductive PeerData where
  | members (peers : List Peer)
  | buckets (vectors : List (OtVector Peer))
deriving DecidableEq, Repr

structure PeerVector where
  data : PeerData
  space : Nat
deriving DecidableEq, Repr

namespace PeerVector

def size (peers : PeerVector) : Nat :=
  match peers.data with
  | .members stored => stored.length
  | .buckets vectors => vectors.length

def hasBuckets (peers : PeerVector) : Bool := peers.size > peers.space

/-- The `bucket_list` of `num_buckets` vectors that the cleaner, the replies and
the redistribution walk through: a plain vector is a list of one bucket. -/
def bucketList (peers : PeerVector) : List (OtVector Peer) :=
  match peers.hasBuckets, peers.data with
  | true, .buckets vectors => vectors
  | true, .members _ => []
  | false, .members stored => [⟨stored, peers.space⟩]
  | false, .buckets _ => [⟨[], peers.space⟩]

/-- Writing back through the pointers into `bucket_list`. -/
def setBucketList (peers : PeerVector) (vectors : List (OtVector Peer)) : PeerVector :=
  match peers.hasBuckets, vectors with
  | true, vectors => ⟨.buckets vectors, peers.space⟩
  | false, [vector] => ⟨.members vector.data, vector.space⟩
  | false, _ => peers

def all (peers : PeerVector) : List Peer := peers.bucketList.flatMap OtVector.data

def bucketIndex (peers : PeerVector) (peer : Peer) : Nat :=
  if peers.space < peers.size then vectorHashPeer peer peers.size else 0

def bucketFor (peers : PeerVector) (peer : Peer) : OtVector Peer :=
  peers.bucketList.getD (peers.bucketIndex peer) .empty

def setBucketFor (peers : PeerVector) (peer : Peer) (vector : OtVector Peer) : PeerVector :=
  peers.setBucketList (peers.bucketList.set (peers.bucketIndex peer) vector)

end PeerVector

/-- `vector_find_or_insert_peer`: the peer vector, the position of the match in
the peer's bucket and `exactmatch`. -/
def vectorFindOrInsertPeer (heap : Heap) (peers : PeerVector) (peer : Peer) : Heap × Option (PeerVector × Nat × Int) :=
  match vectorFindOrInsert heap (peers.bucketFor peer) peer Peer.addr with
  | (heap, none) => (heap, none)
  | (heap, some (vector, position, exactmatch)) =>
    (heap, some (peers.setBucketFor peer vector, position, exactmatch))

/-- `vector_remove_peer`: 0 when no peer was found, 1 when a peer that is not
seeding was removed and 2 when a seeding one was. -/
def vectorRemovePeer (peers : PeerVector) (peer : Peer) : PeerVector × Nat :=
  if peers.size = 0 then (peers, 0)
  else
    let vector := peers.bucketFor peer
    let (position, exactmatch) := binarySearch peer.addr Peer.addr vector.data
    if exactmatch = 0 then (peers, 0)
    else match vector.data[position]? with
      | none => (peers, 0)
      | some found =>
        (peers.setBucketFor peer (vectorFixupPeers ⟨vector.data.eraseIdx position, vector.space⟩),
          if found.seeding then 2 else 1)

structure PeerList where
  base : Int
  seedCount : Nat
  peerCount : Nat
  downCount : Nat
  peers : PeerVector
deriving DecidableEq, Repr

def incSize (value : Nat) : Nat := (value + 1) % 2 ^ 64

/-- A `size_t` decremented by `n` wraps below zero. -/
def subSize (value n : Nat) : Nat := if n ≤ value then value - n else value + 2 ^ 64 - n

def PeerList.zero : PeerList := ⟨0, 0, 0, 0, ⟨.members [], 0⟩⟩

/-- The bucket count `vector_redistribute_buckets` settles on. -/
def numBucketsNew (peerCount numBucketsOld : Nat) : Nat :=
  if peerCount < 255 then 1
  else if peerCount > 8192 then 64
  else if peerCount ≥ 512 ∧ peerCount < 4096 then 16
  else if peerCount < 512 ∧ numBucketsOld ≤ 16 then numBucketsOld
  else if peerCount < 512 then 1
  else if peerCount < 8192 ∧ numBucketsOld > 1 then numBucketsOld
  else 16

/-- The first space of a new bucket: doubled until it reaches `wanted`. -/
def bucketSizeNew (wanted : Nat) : (fuel size : Nat) → Nat
  | 0, size => size
  | fuel + 1, size => if size < wanted then bucketSizeNew wanted fuel (size * otVectorGrowRatio) else size

def allocateEach : Heap → Nat → Bool × Heap
  | heap, 0 => (true, heap)
  | heap, count + 1 =>
    match allocate heap with
    | (false, heap) => (false, heap)
    | (true, heap) => allocateEach heap count

def distributePeer (heap : Heap) (vectors : List (OtVector Peer)) (peer : Peer) : Heap × Option (List (OtVector Peer)) :=
  let index := if vectors.length > 1 then vectorHashPeer peer vectors.length else 0
  let dest := vectors.getD index .empty
  if dest.size + 1 > dest.space then
    match allocate heap with
    | (false, heap) => (heap, none)
    | (true, heap) => (heap, some (vectors.set index ⟨dest.data ++ [peer], dest.space * otVectorGrowRatio⟩))
  else (heap, some (vectors.set index ⟨dest.data ++ [peer], dest.space⟩))

def distributePeers : Heap → List (OtVector Peer) → List Peer → Heap × Option (List (OtVector Peer))
  | heap, vectors, [] => (heap, some vectors)
  | heap, vectors, peer :: rest =>
    match distributePeer heap vectors peer with
    | (heap, none) => (heap, none)
    | (heap, some vectors) => distributePeers heap vectors rest

def vectorComparePeer (left right : Peer) : Int := memcmp left.addr right.addr

def qsortPeers (peers : List Peer) : List Peer :=
  peers.insertionSort fun left right => vectorComparePeer left right ≤ 0

/-- `vector_redistribute_buckets`. The loop over an old bucket counts its peers
down in an `int`. A failed allocation leaves the peer list as it was. -/
def vectorRedistributeBuckets (heap : Heap) (peerList : PeerList) : Heap × PeerList :=
  let old := peerList.peers.bucketList
  let count := numBucketsNew peerList.peerCount old.length
  if count = old.length then (heap, peerList)
  else match allocate heap with
    | (false, heap) => (heap, peerList)
    | (true, heap) =>
      let wanted := peerList.peerCount / count
      let space := bucketSizeNew wanted wanted otVectorMinMembers
      match allocateEach heap count with
      | (false, heap) => (heap, peerList)
      | (true, heap) =>
        let moved := old.flatMap fun vector => vector.data.take (vector.size % 2 ^ 32)
        match distributePeers heap (List.replicate count ⟨[], space⟩) moved with
        | (heap, none) => (heap, peerList)
        | (heap, some vectors) =>
          let sorted := vectors.map fun vector => (⟨qsortPeers vector.data, vector.space⟩ : OtVector Peer)
          let first := sorted.getD 0 .empty
          if count > 1 then (heap, { peerList with peers := ⟨.buckets sorted, 0⟩ })
          else (heap, { peerList with peers := ⟨.members first.data, first.space⟩ })

end BtServer
