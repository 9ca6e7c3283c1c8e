import BtServer.Lib.Bytes
import BtServer.Lib.Keyed

/-! The peer record of `trackerlogic.h`: four bytes of address and two of port,
which are compared, and then a byte of flags and one of age in minutes. -/

namespace BtServer
open Lib

abbrev Hash := Vector UInt8 20

def otPeerTimeout : Int := 45
def otTorrentTimeoutHours : Int := 24
def otTorrentTimeout : Int := 60 * otTorrentTimeoutHours

def peerFlagSeeding : UInt8 := 0x80
def peerFlagCompleted : UInt8 := 0x40
def peerFlagStopped : UInt8 := 0x20

structure Peer where
  ip : Vector UInt8 4
  port : Vector UInt8 2
  flag : UInt8
  time : UInt8
deriving DecidableEq, Repr

namespace Peer

/-- The first `OT_PEER_COMPARE_SIZE` bytes of the record. -/
def addr (peer : Peer) : Bytes := peer.ip.toList ++ peer.port.toList

def key (peer : Peer) : Nat := bigEndian peer.addr

def seeding (peer : Peer) : Bool := peer.flag &&& peerFlagSeeding != 0

def completed (peer : Peer) : Bool := peer.flag &&& peerFlagCompleted != 0

@[simp] theorem addr_length (peer : Peer) : peer.addr.length = 6 := by simp [addr]

theorem key_eq_iff {left right : Peer} : left.key = right.key ↔ left.addr = right.addr :=
  bigEndian_inj (by simp)

@[simp] theorem addr_time (peer : Peer) (time : UInt8) : { peer with time := time }.addr = peer.addr := rfl

end Peer

/-- `vector_hash_peer`: the hash arithmetic is on `unsigned int`, the result on `uint8_t`. -/
def vectorHashPeer (peer : Peer) (bucketCount : Nat) : Nat :=
  let hash := peer.addr.foldl (fun (hash : UInt32) byte => hash + ((hash <<< 5) + byte.toUInt32)) 5381
  hash.toNat % bucketCount % 256

theorem vectorHashPeer_lt {bucketCount : Nat} (positive : 0 < bucketCount) (peer : Peer) :
    vectorHashPeer peer bucketCount < bucketCount :=
  lt_of_le_of_lt (Nat.mod_le _ _) (Nat.mod_lt _ positive)

@[simp] theorem vectorHashPeer_one (peer : Peer) : vectorHashPeer peer 1 = 0 := by
  simp [vectorHashPeer, Nat.mod_one]

theorem vectorHashPeer_congr {left right : Peer} (same : left.key = right.key) (bucketCount : Nat) :
    vectorHashPeer left bucketCount = vectorHashPeer right bucketCount := by
  simp only [vectorHashPeer, Peer.key_eq_iff.mp same]

end BtServer
