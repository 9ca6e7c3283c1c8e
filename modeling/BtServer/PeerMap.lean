import BtServer.Tracker

/-! What a torrent's peer list stands for: a finite map from `ip:port` to flags
and age, and what an announce and a stop mean for that map. -/

namespace BtServer
open Lib

/-- Flags and age under the six bytes of address and port. -/
abbrev PeerMap := Bytes → Option (UInt8 × UInt8)

namespace PeerMap

def empty : PeerMap := fun _ => none

/-- Every peer grows older by `elapsed` minutes, and the ones that reach
`OT_PEER_TIMEOUT` are dropped. -/
def expire (elapsed : Int) (map : PeerMap) : PeerMap := fun addr =>
  match map addr with
  | none => none
  | some (flag, age) =>
    if elapsed + age.toNat < otPeerTimeout then some (flag, toByte (elapsed + age.toNat)) else none

/-- The `COMPLETED` bit a peer has earned before. -/
def completedBit (map : PeerMap) (addr : Bytes) : UInt8 :=
  match map addr with
  | none => 0
  | some (flag, _) => flag &&& peerFlagCompleted

def announce (elapsed : Int) (map : PeerMap) (peer : Peer) : PeerMap :=
  let left := map.expire elapsed
  Function.update left peer.addr (some (sanitizeFlag peer.flag ||| left.completedBit peer.addr, 0))

def stop (map : PeerMap) (peer : Peer) : PeerMap := Function.update map peer.addr none

end PeerMap

/-- The map a peer vector stores, in whatever layout. -/
def PeerVector.toMap (peers : PeerVector) : PeerMap := fun addr =>
  (lookup Peer.addr peers.all addr).map fun peer => (peer.flag, peer.time)

namespace Tracker

def find (tracker : Tracker) (hash : Hash) : Option PeerList :=
  (lookup Torrent.hash (tracker.allTorrents (bucketOfHash hash)).data hash).bind Torrent.peerList

def toMap (tracker : Tracker) (hash : Hash) : PeerMap :=
  match tracker.find hash with
  | none => .empty
  | some peerList => peerList.peers.toMap

/-- The minutes since the torrent was last brought up to date. -/
def elapsed (tracker : Tracker) (now : Int) (hash : Hash) : Int :=
  match tracker.find hash with
  | none => 0
  | some peerList => now - peerList.base

end Tracker

end BtServer
