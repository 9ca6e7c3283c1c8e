import BtServer.Lib.Regions
import BtServer.StreamSync

/-! `streamsync_worker` of `proxy.c` with the block of memory it allocates for a bucket: `mem` is computed
from the numbers of torrents before anything is written, and three pointers go through the block. All peers
are in memory, with eight bytes each, so none of the sums exceeds a `size_t`. -/

namespace BtServer.StreamMemory
open Lib

/-- Which of the three pointers `dst` points to. -/
inductive Dst where
  | ptrA
  | ptrB
  | ptrC
deriving DecidableEq, Repr

/-- The block and the pointers, as distances from `ptr`. -/
structure Writer where
  memory : List (Option UInt8)
  ptrA : Nat
  ptrB : Nat
  ptrC : Nat
deriving DecidableEq, Repr

def Writer.pointer (writer : Writer) : Dst → Nat
  | .ptrA => writer.ptrA
  | .ptrB => writer.ptrB
  | .ptrC => writer.ptrC

def Writer.advance (writer : Writer) (memory : List (Option UInt8)) (count : Nat) : Dst → Writer
  | .ptrA => { writer with memory := memory, ptrA := writer.ptrA + count }
  | .ptrB => { writer with memory := memory, ptrB := writer.ptrB + count }
  | .ptrC => { writer with memory := memory, ptrC := writer.ptrC + count }

def write (writer : Writer) (dst : Dst) (bytes : Bytes) : Access Overlap Writer := do
  let memory ← fill writer.memory (writer.pointer dst) bytes
  pure (writer.advance memory bytes.length dst)

/-- The loop that encodes the number of peers; a `size_t` has at most ten groups. -/
def putCount : (fuel : Nat) → Writer → Dst → (countPeers : Nat) → Access Overlap Writer
  | 0, writer, _, countPeers => if countPeers = 0 then pure writer else .error .unfinished
  | fuel + 1, writer, dst, countPeers =>
    if countPeers = 0 then pure writer
    else do
      let writer ← write writer dst [(if countPeers ≤ 0x7f then countPeers else 0x80 ||| (countPeers &&& 0x7f)).toUInt8]
      putCount fuel writer dst (countPeers >>> 7)

def putPeers : (countPeers : Nat) → List Peer → Writer → Dst → Access Overlap Writer
  | 0, _, writer, _ => pure writer
  | _ + 1, [], _, _ => .error .outside
  | countPeers + 1, peer :: peers, writer, dst => do
    let writer ← write writer dst (peerBytes peer)
    putPeers countPeers peers writer dst

/-- The destination slot of a torrent with that many peers. -/
def destinationSlot (memA memB countPeers : Nat) : Dst :=
  if countPeers = 1 then (if memA ≠ 0 then .ptrA else .ptrC)
  else if countPeers = 2 then (if memB ≠ 0 then .ptrB else .ptrC)
  else .ptrC

/-- Only the general block has the numbers of peers. -/
def encodePeerCount (writer : Writer) (dst : Dst) (countPeers : Nat) : Access Overlap Writer :=
  if dst = .ptrC then putCount 10 writer dst countPeers else pure writer

def writeTorrent (writer : Writer) (dst : Dst) (torrent : Torrent) : Access Overlap Writer := do
  let peerList := torrent.peerList.getD .zero
  let writer ← write writer dst (torrent.hash.toList.drop 1)
  let writer ← encodePeerCount writer dst peerList.peerCount
  putPeers peerList.peerCount (plainPeers peerList) writer dst

def putTorrent (memA memB : Nat) (writer : Writer) (torrent : Torrent) : Access Overlap Writer :=
  let countPeers := (torrent.peerList.getD .zero).peerCount
  if countPeers = 0 then pure writer else writeTorrent writer (destinationSlot memA memB countPeers) torrent

def putTorrents (memA memB : Nat) : Writer → List Torrent → Access Overlap Writer
  | writer, [] => pure writer
  | writer, torrent :: torrents => do
    let writer ← putTorrent memA memB writer torrent
    putTorrents memA memB writer torrents

def countDefPeers (torrents : List Torrent) : Nat :=
  ((torrents.map fun torrent => (torrent.peerList.getD .zero).peerCount).filter (2 < ·)).sum

def syncMem (torrents : List Torrent) : Nat :=
  let countOne := countPeers torrents (· = 1)
  let countTwo := countPeers torrents (· = 2)
  let countDef := countPeers torrents (2 < ·)
  3 * (1 + 1 + 2) + (countOne + countTwo) * (19 + 1) + countDef * (19 + 8) +
    (countOne + 2 * countTwo + countDefPeers torrents) * 7

structure Written where
  writer : Writer
  memA : Nat
  memB : Nat
  sent : Nat
deriving DecidableEq, Repr

def writeHeader (present : Bool) (writer : Writer) (dst : Dst) (header : Bytes) : Access Overlap Writer :=
  if present then write writer dst header else pure writer

/-- The worker on a bucket with torrents, up to the bytes that every peer is sent. -/
def writeBucket (bucket : Nat) (torrents : List Torrent) : Access Overlap Written := do
  let countOne := countPeers torrents (· = 1)
  let countTwo := countPeers torrents (· = 2)
  let countDef := countPeers torrents (2 < ·)
  let blockOne : Bool := countOne > 4 ∨ countDef = 0
  let memA := if blockOne then 1 + 1 + 2 + countOne * (19 + 7) else 0
  let countDef := if blockOne then countDef else countDef + countOne
  let blockTwo : Bool := countTwo > 4 ∨ countDef = 0
  let memB := if blockTwo then 1 + 1 + 2 + countTwo * (19 + 14) else 0
  let countDef := if blockTwo then countDef else countDef + countTwo
  let writer : Writer := ⟨List.replicate (syncMem torrents) none, 0, memA, memA + memB⟩
  let writer ← writeHeader blockOne writer .ptrA (blockHeader 1 bucket countOne)
  let writer ← writeHeader blockTwo writer .ptrB (blockHeader 2 bucket countTwo)
  let writer ← writeHeader (countDef ≠ 0) writer .ptrC (blockHeader 0 bucket countDef)
  let writer ← putTorrents memA memB writer torrents
  pure ⟨writer, memA, memB, max writer.ptrA (max writer.ptrB writer.ptrC)⟩

/-- For an empty bucket nothing is allocated. -/
def streamsyncBucket (bucket : Nat) (torrents : List Torrent) : Access Overlap (Option Written) :=
  if torrents = [] then pure none else some <$> writeBucket bucket torrents

end BtServer.StreamMemory
