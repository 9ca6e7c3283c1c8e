import BtServer.Lib.Buffer
import BtServer.Lib.Text
import BtServer.Peer

/-! The packets of `ot_livesync.c`. Records are collected in `g_outbuf` behind a header
of tracker id and packet type, sent when the buffer is nearly full or has been waiting
for too long, and read back one by one. The size of an address is 4 or, in a build
with `WANT_V6`, 16. -/

namespace BtServer
open Lib

def livesyncOutgoingBuffsizePeers : Nat := 1480
def livesyncMaxdelay : Int := 15
def otSyncPeer : Nat := 0

/-- `sizeof( g_tracker_id ) + sizeof( uint32_t )`. -/
def livesyncHeaderSize : Nat := 4 + 4

def otPeerSize (ipSize : Nat) : Nat := ipSize + 2 + 2

/-- `sizeof( ot_hash ) + sizeof( ot_peer )`, which is also the watermark. -/
def livesyncRecordSize (ipSize : Nat) : Nat := 20 + otPeerSize ipSize

structure SyncRecord (ipSize : Nat) where
  hash : Hash
  peer : Vector UInt8 (otPeerSize ipSize)
deriving DecidableEq, Repr

def SyncRecord.bytes {ipSize : Nat} (record : SyncRecord ipSize) : Bytes := record.hash.toList ++ record.peer.toList

/-- The first `g_outbuf_data` bytes of `g_outbuf`, and `g_next_packet_time`. -/
structure LiveSync where
  gOutbuf : Bytes
  gNextPacketTime : Int
deriving DecidableEq, Repr

def livesyncHeader (gTrackerId : Vector UInt8 4) : Bytes := gTrackerId.toList ++ htonl otSyncPeer

def livesyncInit (gTrackerId : Vector UInt8 4) (gNowSeconds : Int) : LiveSync :=
  ⟨livesyncHeader gTrackerId, gNowSeconds + livesyncMaxdelay⟩

/-- The buffer that is left and the packet that is sent. -/
def livesyncIssuePeersync (sync : LiveSync) (gNowSeconds : Int) : LiveSync × Bytes :=
  (⟨sync.gOutbuf.take livesyncHeaderSize, gNowSeconds + livesyncMaxdelay⟩, sync.gOutbuf)

def livesyncTicker (sync : LiveSync) (gNowSeconds : Int) : LiveSync × Option Bytes :=
  if gNowSeconds > sync.gNextPacketTime ∧ sync.gOutbuf.length > livesyncHeaderSize then
    let (sync, packet) := livesyncIssuePeersync sync gNowSeconds
    (sync, some packet)
  else (sync, none)

def livesyncTell {ipSize : Nat} (sync : LiveSync) (gNowSeconds : Int) (record : SyncRecord ipSize) :
    LiveSync × Option Bytes :=
  let sync := { sync with gOutbuf := sync.gOutbuf ++ record.bytes }
  if sync.gOutbuf.length ≥ livesyncOutgoingBuffsizePeers - livesyncRecordSize ipSize then
    let (sync, packet) := livesyncIssuePeersync sync gNowSeconds
    (sync, some packet)
  else (sync, none)

def readRecord (ipSize : Nat) (request : Bytes) (off : Nat) : SyncRecord ipSize :=
  ⟨readBytes 20 request off, readBytes (otPeerSize ipSize) request (off + 20)⟩

/-- The records the loop of `livesync_handle_peersync` comes to from an offset on. -/
def peersyncRecords (ipSize : Nat) (request : Bytes) : (fuel off : Nat) → List (SyncRecord ipSize)
  | 0, _ => []
  | fuel + 1, off =>
    if off + livesyncRecordSize ipSize ≤ request.length then
      readRecord ipSize request off :: peersyncRecords ipSize request fuel (off + livesyncRecordSize ipSize)
    else []

def livesyncHandlePeersync (ipSize : Nat) (request : Bytes) : List (SyncRecord ipSize) :=
  peersyncRecords ipSize request request.length livesyncHeaderSize

/-- A tracker's live sync with the packets it has sent. -/
structure LiveWire where
  sync : LiveSync
  sent : List Bytes
deriving DecidableEq, Repr

inductive LiveCall (ipSize : Nat) where
  | tell (gNowSeconds : Int) (record : SyncRecord ipSize)
  | ticker (gNowSeconds : Int)
deriving DecidableEq, Repr

namespace LiveWire
variable {ipSize : Nat}

def next (wire : LiveWire) : LiveCall ipSize → LiveWire
  | .tell gNowSeconds record =>
    let (sync, packet) := livesyncTell wire.sync gNowSeconds record
    ⟨sync, wire.sent ++ packet.toList⟩
  | .ticker gNowSeconds =>
    let (sync, packet) := livesyncTicker wire.sync gNowSeconds
    ⟨sync, wire.sent ++ packet.toList⟩

def run (gTrackerId : Vector UInt8 4) (start : Int) (calls : List (LiveCall ipSize)) : LiveWire :=
  calls.foldl next ⟨livesyncInit gTrackerId start, []⟩

end LiveWire

def LiveCall.told {ipSize : Nat} : LiveCall ipSize → Option (SyncRecord ipSize)
  | .tell _ record => some record
  | .ticker _ => none

end BtServer
