import BtServer.PeerList
import BtServer.Lib.Text

/-! The peers of an announce reply, `return_peers_for_torrent`. The values that
`random` is going to return are a list; when it has run out they are zero. -/

namespace BtServer
open Lib

inductive Proto where
  | tcp
  | udp
deriving DecidableEq, Repr

def draw : List Nat → Nat × List Nat
  | [] => (0, [])
  | value :: rest => (value, rest)

/-- The part of the reply buffer reserved for `amount` peers: the ones written
from its start upwards and the ones written from its end downwards. -/
structure PeerBlock where
  front : List Bytes
  back : List Bytes
  amount : Nat
deriving DecidableEq, Repr

namespace PeerBlock

def empty (amount : Nat) : PeerBlock := ⟨[], [], amount⟩

def put (block : PeerBlock) (peer : Peer) : PeerBlock :=
  if peer.seeding then { block with back := peer.addr :: block.back }
  else { block with front := block.front ++ [peer.addr] }

def entries (block : PeerBlock) : List Bytes := block.front ++ block.back

end PeerBlock

def otPeerCompareSize : Nat := 6

def returnPeersAll (peerList : PeerList) : PeerBlock :=
  peerList.peers.all.foldl PeerBlock.put (.empty peerList.peerCount)

/-- Shift the peer count up to bit 29, or `none` when it never gets there. -/
def shiftPeerCount : (fuel shiftedPc shift : Nat) → Option (Nat × Nat)
  | 0, _, _ => none
  | fuel + 1, shiftedPc, shift =>
    if shiftedPc / 2 ^ 29 % 2 = 1 then some (shiftedPc, shift)
    else shiftPeerCount fuel (shiftedPc * 2 % 2 ^ 32) (shift + 1)

/-- Walk on from an offset to the bucket it falls into, or `none` when every
bucket is empty and the walk does not end. -/
def seekBucket (vectors : List (OtVector Peer)) : (fuel index offset : Nat) → Option (Nat × Nat)
  | 0, _, _ => none
  | fuel + 1, index, offset =>
    let size := (vectors.getD index .empty).size
    if offset ≥ size then seekBucket vectors fuel ((index + 1) % vectors.length) (offset - size)
    else some (index, offset)

/-- The loop of `return_peers_selection`; `none` when it divides by zero or does
not end. -/
def selectPeers (vectors : List (OtVector Peer)) (shiftedStep shift : Nat) :
    (amount index offset : Nat) → List Nat → PeerBlock → Option PeerBlock
  | 0, _, _, _, block => some block
  | amount + 1, index, offset, random, block =>
    let diff := ((amount + 1) * shiftedStep / 2 ^ shift - amount * shiftedStep / 2 ^ shift) % 2 ^ 32
    if diff = 0 then none
    else
      let (value, random) := draw random
      let offset := (offset + 1 + value % diff) % 2 ^ 32
      match seekBucket vectors ((offset + 1) * vectors.length + 1) index offset with
      | none => none
      | some (index, offset) =>
        match (vectors.getD index .empty).data[offset]? with
        | none => none
        | some peer => selectPeers vectors shiftedStep shift amount index offset random (block.put peer)

def returnPeersSelection (random : List Nat) (peerList : PeerList) (amount : Nat) : Option PeerBlock :=
  match shiftPeerCount 32 (peerList.peerCount % 2 ^ 32) 0 with
  | none => none
  | some (shiftedPc, shift) =>
    let (value, random) := draw random
    selectPeers peerList.peers.bucketList (shiftedPc / amount) shift amount 0
      (value % peerList.peerCount) random (.empty amount)

def otClientRequestInterval : Nat := 60 * 30
def otClientRequestVariation : Nat := 60 * 6

def otClientRequestIntervalRandom (value : Nat) : Nat :=
  otClientRequestInterval - otClientRequestVariation / 2 + value % otClientRequestVariation

structure Reply where
  header : Bytes
  peers : PeerBlock
  trailer : Bytes
deriving DecidableEq, Repr

def Reply.bytes (reply : Reply) : Bytes := reply.header ++ reply.peers.entries.flatten ++ reply.trailer

def returnPeersForTorrent (random : List Nat) (peerList : PeerList) (amount : Nat) (proto : Proto) : Option Reply :=
  let amount := if amount > peerList.peerCount then peerList.peerCount else amount
  let (value, random) := draw random
  let erval := otClientRequestIntervalRandom value
  let incomplete := subSize peerList.peerCount peerList.seedCount
  let header := match proto with
    | .tcp =>
      ascii "d8:completei" ++ sizeDecimal peerList.seedCount ++ ascii "e10:downloadedi" ++
      sizeDecimal peerList.downCount ++ ascii "e10:incompletei" ++ sizeDecimal incomplete ++
      ascii "e8:intervali" ++ decimal erval ++ ascii "e12:min intervali" ++ decimal (erval / 2) ++
      ascii "e5:peers" ++ sizeDecimal (otPeerCompareSize * amount) ++ ascii ":"
    | .udp => htonl erval ++ htonl incomplete ++ htonl peerList.seedCount
  let trailer := match proto with
    | .tcp => ascii "e"
    | .udp => []
  let block :=
    if amount = 0 then some (PeerBlock.empty 0)
    else if amount = peerList.peerCount then some (returnPeersAll peerList)
    else returnPeersSelection random peerList amount
  block.map fun block => ⟨header, block, trailer⟩

end BtServer
